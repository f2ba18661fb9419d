import ParaHotstuff.Data.Sign

/-! Round data, the statements nodes sign, and the justifications that carry them. -/

namespace ParaHotstuff

/-- What a node states in one phase of one view: a proposed and a justified block. -/
structure RData where
  proph : Hash
  propv : View
  justh : Hash
  justv : View
  phase : Phase1
deriving DecidableEq, Repr

namespace RData

/-- Round data built without arguments speaks of genesis in view 0. -/
def default : RData := ⟨Hash.default, 0, Hash.default, 0, PH1_NEWVIEW⟩

/-- The signed text writes the five fields one after the other, with nothing between them. -/
def toString (r : RData) : Text :=
  r.proph.toString ++ toText r.propv ++ r.justh.toString ++ toText r.justv
    ++ toText r.phase.toNat

/-- Equality compares the fields, hashes by their bytes. -/
instance : BEq RData := ⟨fun a b =>
  a.proph == b.proph && a.propv == b.propv && a.justh == b.justh && a.justv == b.justv
    && a.phase == b.phase⟩

/-- Statements with the same text propose the same block. -/
theorem proph_of_toString {a b : RData} (same : a.toString = b.toString) :
    a.proph.hash = b.proph.hash := by
  simp only [toString, List.append_assoc] at same
  exact Hash.digest_of_append same

end RData

/-- Round data of the parallel protocol also names a slot of the view. -/
structure RDataPara where
  proph : Hash
  propv : View
  justh : Hash
  justv : View
  phase : Phase1
  seqNumber : Nat
deriving DecidableEq, Repr

namespace RDataPara

/-- Round data built without arguments speaks of genesis in view 0. -/
def default : RDataPara := ⟨Hash.default, 0, Hash.default, 0, PH1_NEWVIEW, 0⟩

/-- The signed text writes the six fields one after the other, with nothing between them. -/
def toString (r : RDataPara) : Text :=
  r.proph.toString ++ toText r.propv ++ r.justh.toString ++ toText r.justv
    ++ toText r.phase.toNat ++ toText r.seqNumber

/-- Equality compares the fields, hashes by their bytes. -/
instance : BEq RDataPara := ⟨fun a b =>
  a.proph == b.proph && a.propv == b.propv && a.justh == b.justh && a.justv == b.justv
    && a.phase == b.phase && a.seqNumber == b.seqNumber⟩

/-- Statements with the same text propose the same block. -/
theorem proph_of_toString {a b : RDataPara} (same : a.toString = b.toString) :
    a.proph.hash = b.proph.hash := by
  simp only [toString, List.append_assoc] at same
  exact Hash.digest_of_append same

end RDataPara

/-- The tagged round data a justification holds. -/
inductive RDataType where
  | RData (rdata : RData)
  | RDataPara (rdataPara : RDataPara)
deriving DecidableEq, Repr

/-- A justification: round data with the signatures on it. -/
structure Just where
  set : Bool
  data : RDataType
  signs : Signs
deriving DecidableEq, Repr

namespace Just

/-- The dummy justification, which is not set. -/
def default : Just := ⟨false, .RData .default, []⟩

/-- The dummy justification of the parallel protocol. -/
def defaultPara : Just := ⟨false, .RDataPara .default, []⟩

def ofRData (rdata : RData) (signs : Signs) : Just := ⟨true, .RData rdata, signs⟩
def ofRDataPara (rdata : RDataPara) (signs : Signs) : Just := ⟨true, .RDataPara rdata, signs⟩

/-- The round data, unless the tag says otherwise; the source throws there. -/
def getRData (j : Just) : Option RData :=
  match j.data with
  | .RData r => some r
  | .RDataPara _ => none

/-- The parallel round data, unless the tag says otherwise; the source throws there. -/
def getRDataPara (j : Just) : Option RDataPara :=
  match j.data with
  | .RData _ => none
  | .RDataPara r => some r

/-- The untagged member of the union; both kinds of round data begin with the same five fields. -/
def rdata (j : Just) : RData :=
  match j.data with
  | .RData r => r
  | .RDataPara r => ⟨r.proph, r.propv, r.justh, r.justv, r.phase⟩

@[simp] theorem getRData_ofRData (r : RData) (signs : Signs) :
    (ofRData r signs).getRData = some r := rfl

@[simp] theorem getRDataPara_ofRDataPara (r : RDataPara) (signs : Signs) :
    (ofRDataPara r signs).getRDataPara = some r := rfl

@[simp] theorem set_ofRData (r : RData) (signs : Signs) : (ofRData r signs).set = true := rfl

@[simp] theorem set_ofRDataPara (r : RDataPara) (signs : Signs) :
    (ofRDataPara r signs).set = true := rfl

@[simp] theorem signs_ofRData (r : RData) (signs : Signs) : (ofRData r signs).signs = signs := rfl

@[simp] theorem signs_ofRDataPara (r : RDataPara) (signs : Signs) :
    (ofRDataPara r signs).signs = signs := rfl

/-- The justification of the genesis block: view 0 and no signatures. -/
def wellFormedInit (j : Just) : Bool :=
  match j.data with
  | .RData r => r.propv == 0 && r.justv == 0 && r.phase == PH1_NEWVIEW && j.signs.length == 0
  | .RDataPara _ => false

/-- A new-view justification: one signature. -/
def wellFormedNv (j : Just) : Bool :=
  j.rdata.justh.set && j.rdata.phase == PH1_NEWVIEW && j.signs.length == 1

/-- A quorum certificate: as many signatures as a quorum has nodes. -/
def wellFormedPrep (j : Just) (qsize : Nat) : Bool :=
  j.rdata.proph.set && j.rdata.phase == PH1_PREPARE && j.signs.length == qsize

def wellFormed (j : Just) (qsize : Nat) : Bool :=
  j.wellFormedInit || j.wellFormedNv || j.wellFormedPrep qsize

/-- The view of the block a justification certifies. -/
def getCView (j : Just) : View :=
  if j.wellFormedInit || j.wellFormedNv then j.rdata.justv else j.rdata.propv

/-- The hash of the block a justification certifies. -/
def getCHash (j : Just) : Hash :=
  if j.wellFormedInit || j.wellFormedNv then j.rdata.justh else j.rdata.proph

/-- The text of a justification enters the hash of a block that carries it. -/
def toString (signsText : Signs → Text) (j : Just) : Text :=
  flagText j.set
    ++ (match j.data with | .RData r => r.toString | .RDataPara r => r.toString)
    ++ signsText j.signs

/--
Equality of justifications, as far as the source defines it.

Without a result stands the path that compares signatures, finds them different and returns
nothing.
-/
def eq? (a b : Just) : Option Bool :=
  if a.set != b.set then some false
  else match a.data, b.data with
    | .RData r, .RData r' => if a.signs == b.signs then some (r == r') else none
    | .RDataPara r, .RDataPara r' => if a.signs == b.signs then some (r == r') else none
    | _, _ => some false

end Just

end ParaHotstuff
