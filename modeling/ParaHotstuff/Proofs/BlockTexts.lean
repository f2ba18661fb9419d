import ParaHotstuff.Data.Checksum
import ParaHotstuff.Proofs.Texts

/-! When different blocks are hashed under the same text. -/

namespace ParaHotstuff

section Splitting

variable {α β : Type}

/--
A way of writing values that splits again where two values are alike.

What follows a value may be any text, so values can be written one after the other.
-/
def Splits (write : α → Text) (alike : α → α → Prop) : Prop :=
  ∀ {a b : α} {rest rest' : Text}, alike a b → write a ++ rest = write b ++ rest' →
    a = b ∧ rest = rest'

/-- Bytes written as numbers split likewise. -/
theorem splits_byte :
    Splits (fun byte : UInt8 => toText byte.toNat)
      fun a b => (toText a.toNat).length = (toText b.toNat).length := by
  intro a b rest rest' width same
  obtain ⟨number, back⟩ := number_of_append same width
  exact ⟨UInt8.toNat_inj.1 number, back⟩

/-- Lists written one value after the other split where their values are alike in turn. -/
theorem Splits.list {write : α → Text} {alike : α → α → Prop} (splits : Splits write alike) :
    Splits (fun values : List α => values.flatMap write) (List.Forall₂ alike) := by
  intro as bs rest rest' pairs
  -- Induction on the pairs; the first values split off, and the lists go on alike.
  induction pairs with
  | nil => exact fun same => ⟨rfl, by simpa using same⟩
  | @cons a b as bs first others ih =>
    intro same
    simp only [List.flatMap_cons, List.append_assoc] at same
    obtain ⟨rfl, others⟩ := splits first same
    obtain ⟨rfl, behind⟩ := ih others
    exact ⟨rfl, behind⟩

/-- A value is alike to itself if the widths compared are its own. -/
theorem forall₂_refl {alike : α → α → Prop} (each : ∀ a, alike a a) (values : List α) :
    List.Forall₂ alike values values := by
  induction values with
  | nil => exact .nil
  | cons a values ih => exact .cons (each a) ih

end Splitting

namespace Transaction

/-- Two transactions write their ids and each byte of their payloads with as many digits. -/
def SameWidths (t t' : Transaction) : Prop :=
  (toText t.clientid).length = (toText t'.clientid).length
    ∧ (toText t.transid).length = (toText t'.transid).length
    ∧ List.Forall₂ (fun a b : UInt8 => (toText a.toNat).length = (toText b.toNat).length)
      t.data t'.data

theorem SameWidths.refl (t : Transaction) : SameWidths t t :=
  ⟨rfl, rfl, forall₂_refl (fun _ : UInt8 => Eq.refl (toText _).length) _⟩

/-- Transactions split where their numbers have as many digits. -/
theorem splits : Splits Transaction.toString SameWidths := by
  rintro t t' rest rest' ⟨clients, ids, payloads⟩ same
  simp only [Transaction.toString, List.append_assoc] at same
  obtain ⟨client, same⟩ := number_of_append same clients
  obtain ⟨id, same⟩ := number_of_append same ids
  obtain ⟨payload, same⟩ := splits_byte.list payloads same
  cases t
  cases t'
  simp_all

end Transaction

/-- The transactions a block names, those its size counts. -/
def counted (size : Nat) (transactions : List Transaction) : List Transaction :=
  transactions.take size

/-- The end of a block's text: its size and the transactions its size counts. -/
theorem contents_of_append {size size' : Nat} {transactions transactions' : List Transaction}
    (sizes : (toText size).length = (toText size').length)
    (alike : List.Forall₂ Transaction.SameWidths (counted size transactions)
      (counted size' transactions'))
    (same : toText size ++ transactions2string size transactions
      = toText size' ++ transactions2string size' transactions') :
    size = size' ∧ counted size transactions = counted size' transactions' := by
  obtain ⟨number, same⟩ := number_of_append same sizes
  have whole : (counted size transactions).flatMap Transaction.toString ++ []
      = (counted size' transactions').flatMap Transaction.toString ++ [] := by
    simpa [transactions2string, counted] using same
  exact ⟨number, (Transaction.splits.list alike whole).1⟩

namespace Block

/-- Two blocks have the same parent, size and counted transactions. -/
structure SameContents (b b' : Block) : Prop where
  prevHash : b.prevHash = b'.prevHash
  size : b.size = b'.size
  transactions : counted b.size b.transactions = counted b'.size b'.transactions

/-- Two blocks write their sizes and the numbers of their transactions with as many digits. -/
structure SameWidths (b b' : Block) : Prop where
  size : (toText b.size).length = (toText b'.size).length
  transactions : List.Forall₂ Transaction.SameWidths (counted b.size b.transactions)
    (counted b'.size b'.transactions)

/-- Blocks with one text have the same contents exactly when their numbers have as many digits. -/
theorem sameContents_iff {b b' : Block} (same : b.toString = b'.toString) :
    SameContents b b' ↔ SameWidths b b' := by
  constructor
  · rintro ⟨-, size, transactions⟩
    exact ⟨by rw [size], transactions ▸ forall₂_refl Transaction.SameWidths.refl _⟩
  · rintro ⟨sizes, alike⟩
    -- The mark is one character and the parent's hash has a fixed width.
    simp only [toString, List.append_assoc] at same
    obtain ⟨-, same⟩ := List.append_inj same rfl
    obtain ⟨parent, same⟩ := Hash.of_append same
    obtain ⟨size, transactions⟩ := contents_of_append sizes alike same
    exact ⟨parent, size, transactions⟩

end Block

namespace PBlock

/-- Two blocks have the same parent, slot, size and counted transactions. -/
structure SameContents (b b' : PBlock) : Prop where
  prevHash : b.prevHash = b'.prevHash
  seqNumber : b.seqNumber = b'.seqNumber
  size : b.size = b'.size
  transactions : counted b.size b.transactions = counted b'.size b'.transactions

/-- The same for blocks that know their slot, which is written before the size. -/
structure SameWidths (b b' : PBlock) : Prop where
  seqNumber : (toText b.seqNumber).length = (toText b'.seqNumber).length
  size : (toText b.size).length = (toText b'.size).length
  transactions : List.Forall₂ Transaction.SameWidths (counted b.size b.transactions)
    (counted b'.size b'.transactions)

theorem sameContents_iff {b b' : PBlock} (same : b.toString = b'.toString) :
    SameContents b b' ↔ SameWidths b b' := by
  constructor
  · rintro ⟨-, slot, size, transactions⟩
    exact ⟨by rw [slot], by rw [size],
      transactions ▸ forall₂_refl Transaction.SameWidths.refl _⟩
  · rintro ⟨slots, sizes, alike⟩
    simp only [toString, List.append_assoc] at same
    obtain ⟨-, same⟩ := List.append_inj same rfl
    obtain ⟨parent, same⟩ := Hash.of_append same
    obtain ⟨slot, same⟩ := number_of_append same slots
    obtain ⟨size, transactions⟩ := contents_of_append sizes alike same
    exact ⟨parent, slot, size, transactions⟩

end PBlock

section Justifications

variable [SignatureBytes]

/-- What a signature prints: its mark, its signer and its bytes. -/
def Sign.printed (s : Sign) : Bool × PID × Text := (s.set, s.signer, SignatureBytes.bytesOf s.sign)

/-- Two signatures write their signers with as many digits, and have as many bytes. -/
def Sign.SameWidths (s s' : Sign) : Prop :=
  (toText s.signer).length = (toText s'.signer).length
    ∧ (SignatureBytes.bytesOf s.sign).length = (SignatureBytes.bytesOf s'.sign).length

/-- Signatures that are alike in turn split, up to what they print. -/
theorem Signs.of_append {signs signs' : Signs} {rest rest' : Text}
    (alike : List.Forall₂ Sign.SameWidths signs signs')
    (same : signs.flatMap Sign.toString ++ rest = signs'.flatMap Sign.toString ++ rest') :
    signs.map Sign.printed = signs'.map Sign.printed ∧ rest = rest' := by
  induction alike with
  | nil => exact ⟨rfl, by simpa using same⟩
  | @cons s s' signs signs' first others ih =>
    simp only [List.flatMap_cons, Sign.toString, List.append_assoc] at same
    -- The mark is one character; the signer and the bytes split off by their widths.
    obtain ⟨mark, same⟩ := List.append_inj same rfl
    obtain ⟨signer, same⟩ := number_of_append same first.1
    obtain ⟨bytes, same⟩ := List.append_inj same first.2
    obtain ⟨tail, same⟩ := ih same
    refine ⟨?_, same⟩
    simp only [List.map_cons, tail, Sign.printed, flagText_injective mark, signer, bytes]

namespace Just

/-- Two justifications print the same mark, round data of one kind, and the same signatures. -/
structure SameContents (j j' : Just) : Prop where
  set : j.set = j'.set
  data : j.data = j'.data
  signs : j.signs.map Sign.printed = j'.signs.map Sign.printed

/-- The round data of two justifications is of one kind, and its numbers have as many digits. -/
def SameData : RDataType → RDataType → Prop
  | .RData r, .RData r' =>
    r.SameWidths r' ∧ (toText r.phase.toNat).length = (toText r'.phase.toNat).length
  | .RDataPara r, .RDataPara r' =>
    r.SameWidths r' ∧ (toText r.seqNumber).length = (toText r'.seqNumber).length
  | _, _ => False

/-- The text of round data of either kind. -/
def dataText : RDataType → Text
  | .RData r => r.toString
  | .RDataPara r => r.toString

omit [SignatureBytes] in
/-- Round data splits where its numbers have as many digits. -/
theorem splits_data : Splits dataText SameData := by
  intro d d' rest rest' alike same
  cases d with
  | RData r =>
    cases d' with
    | RData r' =>
      obtain ⟨⟨propvs, justvs⟩, phases⟩ := alike
      simp only [dataText, RData.toString, List.append_assoc] at same
      obtain ⟨proph, same⟩ := Hash.of_append same
      obtain ⟨propv, same⟩ := number_of_append same propvs
      obtain ⟨justh, same⟩ := Hash.of_append same
      obtain ⟨justv, same⟩ := number_of_append same justvs
      obtain ⟨phase, same⟩ := splits_byte phases same
      cases r
      cases r'
      simp_all
    | RDataPara r' => exact alike.elim
  | RDataPara r =>
    cases d' with
    | RData r' => exact alike.elim
    | RDataPara r' =>
      obtain ⟨⟨propvs, justvs, phases⟩, slots⟩ := alike
      simp only [dataText, RDataPara.toString, List.append_assoc] at same
      obtain ⟨proph, same⟩ := Hash.of_append same
      obtain ⟨propv, same⟩ := number_of_append same propvs
      obtain ⟨justh, same⟩ := Hash.of_append same
      obtain ⟨justv, same⟩ := number_of_append same justvs
      obtain ⟨phase, same⟩ := splits_byte phases same
      obtain ⟨slot, same⟩ := number_of_append same slots
      cases r
      cases r'
      simp_all

/-- Two justifications write all their numbers with as many digits. -/
structure SameWidths (j j' : Just) : Prop where
  data : SameData j.data j'.data
  number : (toText j.signs.length).length = (toText j'.signs.length).length
  signs : List.Forall₂ Sign.SameWidths j.signs j'.signs

/-- Justifications split where their numbers have as many digits, up to what signatures print. -/
theorem of_append {j j' : Just} {rest rest' : Text} (alike : SameWidths j j')
    (same : j.toString Signs.toString ++ rest = j'.toString Signs.toString ++ rest') :
    SameContents j j' ∧ rest = rest' := by
  have written : ∀ j : Just, j.toString Signs.toString
      = flagText j.set ++ dataText j.data ++ (toText j.signs.length
        ++ j.signs.flatMap Sign.toString) := by
    rintro ⟨set, data, signs⟩
    cases data with
    | RData r => rfl
    | RDataPara r => rfl
  rw [written, written] at same
  simp only [List.append_assoc] at same
  obtain ⟨mark, same⟩ := List.append_inj same rfl
  obtain ⟨data, same⟩ := splits_data alike.data same
  obtain ⟨-, same⟩ := number_of_append same alike.number
  obtain ⟨signs, same⟩ := Signs.of_append alike.signs same
  exact ⟨⟨flagText_injective mark, data, signs⟩, same⟩

/-- Justifications that print the same write their numbers with as many digits. -/
theorem SameContents.widths {j j' : Just} (same : SameContents j j') : SameWidths j j' := by
  obtain ⟨-, data, signs⟩ := same
  have number : j.signs.length = j'.signs.length := by
    simpa using congrArg List.length signs
  refine ⟨?_, by rw [number], ?_⟩
  · rw [data]
    cases j'.data with
    | RData r => exact ⟨⟨rfl, rfl⟩, rfl⟩
    | RDataPara r => exact ⟨⟨rfl, rfl, rfl⟩, rfl⟩
  · -- What signatures print determines how wide their signers and bytes are.
    have printed : List.Forall₂ (fun s s' => Sign.printed s = Sign.printed s') j.signs j'.signs :=
      List.forall₂_map_left_iff.1 (List.forall₂_map_right_iff.1 (by
        rw [signs]
        exact forall₂_refl (fun _ => rfl) _))
    refine printed.imp fun s s' equal => ?_
    simp only [Sign.printed, Prod.mk.injEq] at equal
    exact ⟨by rw [equal.2.1], by rw [equal.2.2]⟩

end Just

namespace JBlock

/-- Two blocks have the same view, justification, size and counted transactions. -/
structure SameContents (b b' : JBlock) : Prop where
  view : b.view = b'.view
  just : b.just.SameContents b'.just
  size : b.size = b'.size
  transactions : counted b.size b.transactions = counted b'.size b'.transactions

/-- The same for blocks that carry a justification, which is written between view and size. -/
structure SameWidths (b b' : JBlock) : Prop where
  view : (toText b.view).length = (toText b'.view).length
  just : b.just.SameWidths b'.just
  size : (toText b.size).length = (toText b'.size).length
  transactions : List.Forall₂ Transaction.SameWidths (counted b.size b.transactions)
    (counted b'.size b'.transactions)

theorem sameContents_iff {b b' : JBlock} (same : b.toString = b'.toString) :
    SameContents b b' ↔ SameWidths b b' := by
  constructor
  · rintro ⟨view, just, size, transactions⟩
    exact ⟨by rw [view], just.widths, by rw [size],
      transactions ▸ forall₂_refl Transaction.SameWidths.refl _⟩
  · rintro ⟨views, justs, sizes, alike⟩
    simp only [toString, List.append_assoc] at same
    obtain ⟨-, same⟩ := List.append_inj same rfl
    obtain ⟨view, same⟩ := number_of_append same views
    obtain ⟨just, same⟩ := Just.of_append justs same
    obtain ⟨size, transactions⟩ := contents_of_append sizes alike same
    exact ⟨view, just, size, transactions⟩

end JBlock

/-- Blocks of each protocol with one text have the same contents exactly when all numbers written
in it have as many digits. -/
theorem blockText_binds_iff (b b' : Block) (p p' : PBlock) (j j' : JBlock) :
    (b.toString = b'.toString → (b.SameContents b' ↔ b.SameWidths b'))
    ∧ (p.toString = p'.toString → (p.SameContents p' ↔ p.SameWidths p'))
    ∧ (j.toString = j'.toString → (j.SameContents j' ↔ j.SameWidths j')) :=
  ⟨Block.sameContents_iff, PBlock.sameContents_iff, JBlock.sameContents_iff⟩

end Justifications

/-- One transaction, of client 1 with the id 23 or of client 12 with the id 3. -/
def shifted (second : Bool) : List Transaction :=
  [if second then ⟨12, 3, [zeroChar]⟩ else ⟨1, 23, [zeroChar]⟩]

/-- In blocks of all three kinds the digits of an id may move to the client before it. -/
theorem blockText_not_binding :
    let _ := Checksum.signatureBytes
    ((Block.ofTransactions Hash.default 1 (shifted false)).toString
          = (Block.ofTransactions Hash.default 1 (shifted true)).toString
        ∧ ¬ (Block.ofTransactions Hash.default 1 (shifted false)).SameContents
          (Block.ofTransactions Hash.default 1 (shifted true)))
    ∧ ((PBlock.ofTransactions Hash.default 1 1 (shifted false)).toString
          = (PBlock.ofTransactions Hash.default 1 1 (shifted true)).toString
        ∧ ¬ (PBlock.ofTransactions Hash.default 1 1 (shifted false)).SameContents
          (PBlock.ofTransactions Hash.default 1 1 (shifted true)))
    ∧ ((JBlock.ofTransactions 1 Just.default 1 (shifted false)).toString
          = (JBlock.ofTransactions 1 Just.default 1 (shifted true)).toString
        ∧ ¬ (JBlock.ofTransactions 1 Just.default 1 (shifted false)).SameContents
          (JBlock.ofTransactions 1 Just.default 1 (shifted true))) := by
  intro _
  refine ⟨⟨by decide +kernel, fun same => ?_⟩, ⟨by decide +kernel, fun same => ?_⟩,
    ⟨by decide +kernel, fun same => ?_⟩⟩
  · exact absurd same.transactions (by decide)
  · exact absurd same.transactions (by decide)
  · exact absurd same.transactions (by decide)

end ParaHotstuff
