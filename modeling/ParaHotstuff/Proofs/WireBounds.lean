import ParaHotstuff.Lib.Layout
import ParaHotstuff.Wire.Loops
import ParaHotstuff.Wire.Messages

/-! Which streams make values whose sizes are no larger than their arrays. -/

namespace ParaHotstuff

namespace Wire

open Reader Sizes

section Loops

/-- The transactions that a block counts are read exactly if there are as many. -/
theorem readTransactions_isSome_iff {size : Nat} {transactions : List Transaction} :
    (readTransactions size transactions).isSome = true ↔ size ≤ transactions.length := by
  constructor
  · intro ended
    have within := readFirst_within (Nat.zero_le _) ended
    omega
  · intro within
    exact readFirst_isSome (by omega) _

/-- And then they make the text that is hashed. -/
theorem readTransactions_eq {size : Nat} {transactions : List Transaction}
    (within : size ≤ transactions.length) :
    readTransactions size transactions = some (transactions2string size transactions) := by
  unfold readTransactions transactions2string
  rw [readFirst_eq (by omega), List.drop_zero, List.flatMap_eq_foldl]
  rfl

/-- The text of signatures is read exactly if there are as many as are counted. -/
theorem Signs.toString_isSome_iff {s : Signs} :
    s.toString.isSome = true ↔ s.size ≤ s.signs.length := by
  constructor
  · intro ended
    have within := readFirst_within (Nat.zero_le _) ended
    omega
  · intro within
    exact readFirst_isSome (by omega) _

/-- Arrays of one length are compared without reading past either, if a size they share fits. -/
theorem Signs.lt_isSome {a b : Signs} (within : a.size = b.size → a.size ≤ a.signs.length)
    (same : a.signs.length = b.signs.length) : (a.lt b).isSome = true := by
  unfold lt
  split
  · rfl
  · split
    · rfl
    -- The sizes are equal here, and the shorter array is as long as either.
    · have upTo := within (by omega)
      refine readFirst_isSome ?_ _
      rw [List.length_zip, ← same, Nat.min_self]
      omega

/-- Signatures are added behind those in use, as long as there is room. -/
theorem Signs.addFrom_within {s others : Signs} {n left i : Nat} (room : n ≤ s.signs.length)
    (within : s.size ≤ s.signs.length) (there : i + left ≤ others.signs.length) :
    ∃ t, addFrom others n left i s = some t ∧ t.size ≤ t.signs.length
      ∧ t.signs.length = s.signs.length := by
  -- Induction on the signatures left; each that is added finds room.
  induction left generalizing s i with
  | zero => exact ⟨s, rfl, within, rfl⟩
  | succ left ih =>
    unfold addFrom
    split
    · rename_i more
      have bound : i < others.signs.length := by omega
      have space : s.size < s.signs.length := Nat.lt_of_lt_of_le more room
      -- The array stays as long as it is, and one more of its elements is in use.
      let added : Signs := ⟨s.size + 1, s.signs.set s.size others.signs[i]⟩
      have length : added.signs.length = s.signs.length := List.length_set
      obtain ⟨t, ended, inside, same⟩ := @ih added (i + 1) (length ▸ room) (length ▸ space)
        (by omega)
      have once : s.add others.signs[i] = some added := if_pos space
      refine ⟨t, ?_, inside, same.trans length⟩
      rw [List.getElem?_eq_getElem bound, Option.bind_eq_bind, Option.bind_some, once,
        Option.bind_eq_bind, Option.bind_some]
      exact ended
    · exact ⟨s, rfl, within, rfl⟩

/-- Adding signatures up to a number that the array holds keeps the size within the array. -/
theorem Signs.addUpto_within {s others : Signs} {n : Nat} (room : n ≤ s.signs.length)
    (within : s.size ≤ s.signs.length) (counted : others.size ≤ others.signs.length) :
    ∃ t, s.addUpto others n = some t ∧ t.size ≤ t.signs.length
      ∧ t.signs.length = s.signs.length :=
  addFrom_within room within (by omega)

end Loops

section Parts

variable [Sizes]

/-- The parts of a value that have an array and a size of their own. -/
inductive ArrayPart where
  | signs (s : Signs)
  | block (b : Block)
  | pblock (b : PBlock)
  | jblock (b : JBlock)
deriving DecidableEq, Repr

namespace ArrayPart

def size : ArrayPart → Nat
  | signs s => s.size
  | block b => b.size
  | pblock b => b.size
  | jblock b => b.size

/-- How many elements the array of a part is declared with. -/
def bound : ArrayPart → Nat
  | signs _ => MAX_NUM_SIGNATURES
  | _ => MAX_NUM_TRANSACTIONS

/-- The array is as long as it is declared. -/
def Full : ArrayPart → Prop
  | signs s => s.signs.length = MAX_NUM_SIGNATURES
  | block b => b.transactions.length = MAX_NUM_TRANSACTIONS
  | pblock b => b.transactions.length = MAX_NUM_TRANSACTIONS
  | jblock b => b.transactions.length = MAX_NUM_TRANSACTIONS

/-- No loop over the array of a part reads past it; signatures are compared with any others. -/
def Inside : ArrayPart → Prop
  | signs s =>
    (∀ (Key : Type) (known : PID → Option Key) (valid : Key → Text → Sign → Bool) (text : Text),
      (s.verify known valid text).isSome = true)
      ∧ s.getSigners.isSome = true
      ∧ (∀ other : Signs, other.signs.length = MAX_NUM_SIGNATURES →
        (s.lt other).isSome = true ∧ (other.lt s).isSome = true)
      ∧ s.toString.isSome = true
  | block b => (readTransactions b.size b.transactions).isSome = true
  | pblock b => (readTransactions b.size b.transactions).isSome = true
  | jblock b => (readTransactions b.size b.transactions).isSome = true

/-- The sizes found on a stream are those of the parts, whose arrays are full. -/
def Describes (parts : List ArrayPart) (sizes : List (Option Nat × Nat)) : Prop :=
  sizes = parts.map (fun part => (some part.size, part.bound)) ∧ ∀ part ∈ parts, part.Full

theorem Describes.append {parts more : List ArrayPart} {sizes rest : List (Option Nat × Nat)}
    (first : Describes parts sizes) (second : Describes more rest) :
    Describes (parts ++ more) (sizes ++ rest) := by
  refine ⟨by rw [first.1, second.1, List.map_append], fun part member => ?_⟩
  exact (List.mem_append.1 member).elim (first.2 part) (second.2 part)

/-- Bytes without a size describe no further part. -/
theorem Describes.append_nil {parts : List ArrayPart} {sizes rest : List (Option Nat × Nat)}
    (first : Describes parts sizes) (none : rest = []) : Describes parts (sizes ++ rest) := by
  rwa [none, List.append_nil]

end ArrayPart

/-- The loops over a full array stay inside exactly if the size is no larger than the array. -/
theorem ArrayPart.inside_iff {part : ArrayPart} (full : part.Full) :
    part.Inside ↔ part.size ≤ part.bound := by
  cases part with
  | signs s =>
    have length : s.signs.length = MAX_NUM_SIGNATURES := full
    constructor
    -- Any one of the loops shows it; the text goes through all signatures in use.
    · rintro ⟨-, -, -, text⟩
      have within := Signs.toString_isSome_iff.1 text
      rw [length] at within
      exact within
    · intro within
      have within : s.size ≤ s.signs.length := length ▸ within
      refine ⟨fun Key known valid text => readFirst_isSome (by omega) _,
        readFirst_isSome (by omega) _, fun other others => ⟨?_, ?_⟩,
        Signs.toString_isSome_iff.2 within⟩
      -- Compared from either side, as many signatures are read as both have in use.
      · exact Signs.lt_isSome (fun _ => within) (length.trans others.symm)
      · refine Signs.lt_isSome (fun same => ?_) (others.trans length.symm)
        rw [same, others, ← length]
        exact within
  | block b =>
    have length : b.transactions.length = MAX_NUM_TRANSACTIONS := full
    exact readTransactions_isSome_iff.trans (by rw [length]; rfl)
  | pblock b =>
    have length : b.transactions.length = MAX_NUM_TRANSACTIONS := full
    exact readTransactions_isSome_iff.trans (by rw [length]; rfl)
  | jblock b =>
    have length : b.transactions.length = MAX_NUM_TRANSACTIONS := full
    exact readTransactions_isSome_iff.trans (by rw [length]; rfl)

end Parts

section Layouts

variable [Scalars] [Sizes]

/-- How many bytes signatures and transactions take. -/
def signWidth : Nat := 5 + SIGN_LEN
def transactionWidth : Nat := 8 + PAYLOAD_SIZE

/-- How many bytes the member of a justification takes that its tag selects. -/
def taggedWidth (type : Nat) : Nat := if type == 0 then 75 else if type == 1 then 79 else 0

/-- Sizes come before their arrays, which are written at their full length. -/
def signsLayout : Layout :=
  (Layout.size MAX_NUM_SIGNATURES).seq (.skip (MAX_NUM_SIGNATURES * signWidth))

def blockLayout : Layout :=
  (Layout.skip 1).seq ((Layout.skip 33).seq ((Layout.size MAX_NUM_TRANSACTIONS).seq
    (.skip (MAX_NUM_TRANSACTIONS * transactionWidth))))

def pblockLayout : Layout :=
  (Layout.skip 1).seq ((Layout.skip 33).seq ((Layout.size MAX_NUM_TRANSACTIONS).seq
    ((Layout.skip 4).seq (.skip (MAX_NUM_TRANSACTIONS * transactionWidth)))))

def justLayout : Layout :=
  (Layout.skip 1).seq (.number 4 fun type => (Layout.skip (taggedWidth type)).seq signsLayout)

def jblockLayout : Layout :=
  (Layout.skip 1).seq ((Layout.skip 1).seq ((Layout.skip 4).seq (justLayout.seq
    ((Layout.size MAX_NUM_TRANSACTIONS).seq (.skip (MAX_NUM_TRANSACTIONS * transactionWidth))))))

/-- The layout of each kind of message, by its code. -/
def msgLayout (opcode : UInt8) : Layout :=
  if opcode == HDR_TRANSACTION then .skip (transactionWidth + signWidth)
  else if opcode == HDR_START then .skip (4 + signWidth)
  else if opcode == HDR_REPLY then .skip 4
  else if opcode == HDR_NEWVIEW then (Layout.skip 75).seq signsLayout
  else if opcode == HDR_PREPARE_LDR then (justLayout.seq blockLayout).seq signsLayout
  else if opcode == HDR_PREPARE then (Layout.skip 75).seq signsLayout
  else if opcode == HDR_PRECOMMIT then (Layout.skip 75).seq signsLayout
  else if opcode == HDR_COMMIT then (Layout.skip 75).seq signsLayout
  else if opcode == HDR_NEWVIEW_CH then .skip (75 + signWidth)
  else if opcode == HDR_PREPARE_LDR_CH then jblockLayout.seq (.skip signWidth)
  else if opcode == HDR_PREPARE_CH then .skip (75 + signWidth)
  else if opcode == HDR_NEWVIEW_PARA then (Layout.skip 79).seq signsLayout
  else if opcode == HDR_RECOVER_PARA then
    (Layout.skip 79).seq (signsLayout.seq (.number 4 pblockLayout.times))
  else if opcode == HDR_RECOVER_LDR_PARA then
    (Layout.skip 79).seq (signsLayout.seq (.number 4 fun count => .skip (count * 4)))
  else if opcode == HDR_VERIFY_PARA then
    (Layout.skip 79).seq (signsLayout.seq (.number 8 fun count => .skip (count * 33)))
  else if opcode == HDR_PREPARE_LDR_PARA then (justLayout.seq pblockLayout).seq signsLayout
  else if opcode == HDR_PREPARE_PARA then (Layout.skip 79).seq signsLayout
  else if opcode == HDR_PRECOMMIT_PARA then (Layout.skip 79).seq signsLayout
  else if opcode == HDR_COMMIT_PARA then (Layout.skip 79).seq signsLayout
  else .skip 0

end Layouts

section Widths

variable [Scalars] [FixedWidth]

theorem takes_bool : Takes getBool 1 := (Takes.scalar 1).last

theorem takes_byte : Takes getByte 1 := (Takes.scalar 1).last

theorem takes_unsigned : Takes getUnsigned 4 := Takes.scalar 4

theorem takes_bytes (n : Nat) : Takes (times getByte n) n := by
  have row := takes_byte.times n
  rwa [Nat.mul_one] at row

theorem takes_hash : Takes Hash.unserialize 33 := (takes_bytes 32).bind fun _ => takes_bool.last

theorem takes_rdata : Takes RData.unserialize 75 := by
  -- The fields in the order of the source.
  have row : Takes RData.unserialize (33 + (4 + (33 + (4 + 1)))) :=
    takes_hash.bind fun _ => takes_unsigned.bind fun _ => takes_hash.bind fun _ =>
      takes_unsigned.bind fun _ => takes_byte.last
  exact row

theorem takes_rdataPara : Takes RDataPara.unserialize 79 := by
  have row : Takes RDataPara.unserialize (33 + (4 + (33 + (4 + (1 + 4))))) :=
    takes_hash.bind fun _ => takes_unsigned.bind fun _ => takes_hash.bind fun _ =>
      takes_unsigned.bind fun _ => takes_byte.bind fun _ => takes_unsigned.last
  exact row

theorem takes_tagged (type : Nat) : Takes (Tagged.unserialize type) (taggedWidth type) := by
  unfold Tagged.unserialize taggedWidth
  split
  · exact takes_rdata.last
  · split
    · exact takes_rdataPara.last
    · exact fun _ _ _ read => by cases read; exact ⟨rfl, rfl⟩

variable [Sizes]

theorem takes_transaction : Takes Transaction.unserialize transactionWidth := by
  have row : Takes Transaction.unserialize (4 + (4 + PAYLOAD_SIZE)) :=
    takes_unsigned.bind fun _ => takes_unsigned.bind fun _ => (takes_bytes PAYLOAD_SIZE).last
  rwa [← Nat.add_assoc] at row

theorem takes_sign : Takes Sign.unserialize signWidth := by
  have row : Takes Sign.unserialize (1 + (4 + SIGN_LEN)) :=
    takes_bool.bind fun _ => takes_unsigned.bind fun _ => (takes_bytes SIGN_LEN).last
  rwa [← Nat.add_assoc] at row

end Widths

section Decoders

variable [Scalars] [FixedWidth] [Sizes]

open ArrayPart

/-- The arrays of transactions are read at their full length. -/
theorem takes_transactions : Takes (times Transaction.unserialize MAX_NUM_TRANSACTIONS)
    (MAX_NUM_TRANSACTIONS * transactionWidth) := takes_transaction.times _

theorem lays_signs : Lays Signs.unserialize signsLayout fun s => Describes [.signs s] := by
  refine (Lays.size _).bind fun n sizes found =>
    Lays.last (takes_sign.times _) fun signs more none => ?_
  rw [found, none]
  exact ⟨rfl, by simpa [Full] using signs.2⟩

theorem lays_block : Lays Block.unserialize blockLayout fun b => Describes [.block b] := by
  refine takes_bool.before fun set => takes_hash.before fun prevHash => ?_
  refine (Lays.size _).bind fun size sizes found =>
    Lays.last takes_transactions fun transactions more none => ?_
  rw [found, none]
  exact ⟨rfl, by simpa [Full] using transactions.2⟩

theorem lays_pblock : Lays PBlock.unserialize pblockLayout fun b => Describes [.pblock b] := by
  refine takes_bool.before fun set => takes_hash.before fun prevHash => ?_
  refine (Lays.size _).bind fun size sizes found => ?_
  -- The number of the slot stands between the size and the transactions.
  refine takes_unsigned.before fun seqNumber =>
    Lays.last takes_transactions fun transactions more none => ?_
  rw [found, none]
  exact ⟨rfl, by simpa [Full] using transactions.2⟩

theorem lays_just : Lays Just.unserialize justLayout fun j => Describes [.signs j.signs] := by
  refine takes_bool.before fun set => Lays.number fun type => ?_
  refine (takes_tagged type).before fun data => ?_
  exact lays_signs.last fun signs sizes described => described

theorem lays_jblock : Lays JBlock.unserialize jblockLayout
    fun b => Describes [.signs b.just.signs, .jblock b] := by
  refine takes_bool.before fun set => takes_bool.before fun executed =>
    takes_unsigned.before fun view => lays_just.bind fun just sizes described => ?_
  refine (Lays.size _).bind fun size own found =>
    Lays.last takes_transactions fun transactions more none => ?_
  rw [found, none]
  -- The signatures of the justification come before the transactions.
  exact described.append ⟨rfl, by simpa [Full] using transactions.2⟩

/-- The parts of a message, in the order of the stream. -/
def Msg.parts : Msg → List ArrayPart
  | transaction _ => []
  | start _ => []
  | reply _ => []
  | newView msg => [.signs msg.signs]
  | ldrPrepare msg =>
    [.signs msg.prop.just.signs, .block msg.prop.block, .signs msg.signs]
  | prepare msg => [.signs msg.signs]
  | preCommit msg => [.signs msg.signs]
  | commit msg => [.signs msg.signs]
  | newViewCh _ => []
  | ldrPrepareCh msg => [.signs msg.block.just.signs, .jblock msg.block]
  | prepareCh _ => []
  | newViewPara msg => [.signs msg.signs]
  | recoverPara msg => .signs msg.signs :: msg.blocks.map .pblock
  | ldrRecoverPara msg => [.signs msg.signs]
  | verifyPara msg => [.signs msg.signs]
  | ldrPreparePara msg =>
    [.signs msg.prop.just.signs, .pblock msg.prop.block, .signs msg.signs]
  | preparePara msg => [.signs msg.signs]
  | preCommitPara msg => [.signs msg.signs]
  | commitPara msg => [.signs msg.signs]

theorem lays_rdata : Lays MsgRData.unserialize ((Layout.skip 75).seq signsLayout)
    fun msg => Describes [.signs msg.signs] :=
  takes_rdata.before fun _ => lays_signs.last fun _ _ described => described

theorem lays_rdataPara : Lays MsgRDataPara.unserialize ((Layout.skip 79).seq signsLayout)
    fun msg => Describes [.signs msg.signs] :=
  takes_rdataPara.before fun _ => lays_signs.last fun _ _ described => described

theorem lays_ldrPrepare : Lays MsgLdrPrepare.unserialize
    ((justLayout.seq blockLayout).seq signsLayout) fun msg =>
      Describes [.signs msg.prop.just.signs, .block msg.prop.block, .signs msg.signs] := by
  have prop : Lays Proposal.unserialize (justLayout.seq blockLayout) fun prop =>
      Describes [.signs prop.just.signs, .block prop.block] :=
    lays_just.bind fun just sizes first => lays_block.last fun block more second =>
      first.append second
  exact prop.bind fun prop sizes first => lays_signs.last fun signs more second =>
    first.append second

theorem lays_ldrPreparePara : Lays MsgLdrPreparePara.unserialize
    ((justLayout.seq pblockLayout).seq signsLayout) fun msg =>
      Describes [.signs msg.prop.just.signs, .pblock msg.prop.block, .signs msg.signs] := by
  have prop : Lays ParaProposal.unserialize (justLayout.seq pblockLayout) fun prop =>
      Describes [.signs prop.just.signs, .pblock prop.block] :=
    lays_just.bind fun just sizes first => lays_pblock.last fun block more second =>
      first.append second
  exact prop.bind fun prop sizes first => lays_signs.last fun signs more second =>
    first.append second

theorem lays_ldrPrepareCh : Lays MsgLdrPrepareCh.unserialize (jblockLayout.seq (.skip signWidth))
    fun msg => Describes [.signs msg.block.just.signs, .jblock msg.block] :=
  lays_jblock.bind fun _ _ described => Lays.last takes_sign fun _ _ none =>
    described.append_nil none

/-- The number of blocks comes before the blocks. -/
theorem lays_recoverPara : Lays MsgRecoverPara.unserialize
    ((Layout.skip 79).seq (signsLayout.seq (.number 4 pblockLayout.times))) fun msg =>
      Describes (.signs msg.signs :: msg.blocks.map .pblock) := by
  refine takes_rdataPara.before fun rdata => lays_signs.bind fun signs sizes first => ?_
  -- The sizes of the blocks come one after the other.
  have blocks : ∀ count, Lays (times PBlock.unserialize count) (pblockLayout.times count)
      fun blocks => Describes (blocks.1.map .pblock) := fun count =>
    Lays.times (P := fun blocks => Describes (blocks.map .pblock)) count lays_pblock
      ⟨rfl, fun _ member => by cases member⟩ fun block own blocks rest one others =>
        one.append others
  exact Lays.number fun count => (blocks count).last fun blocks more others => first.append others

/-- The numbers of missing blocks and the hashes come after their number, and hold no sizes. -/
theorem lays_ldrRecoverPara : Lays MsgLdrRecoverPara.unserialize
    ((Layout.skip 79).seq (signsLayout.seq (.number 4 fun count => .skip (count * 4)))) fun msg =>
      Describes [.signs msg.signs] :=
  takes_rdataPara.before fun _ => lays_signs.bind fun _ _ first =>
    Lays.number fun count => Lays.last (takes_unsigned.times count) fun _ _ none =>
      first.append_nil none

theorem lays_verifyPara : Lays MsgVerifyPara.unserialize
    ((Layout.skip 79).seq (signsLayout.seq (.number 8 fun count => .skip (count * 33)))) fun msg =>
      Describes [.signs msg.signs] :=
  takes_rdataPara.before fun _ => lays_signs.bind fun _ _ first =>
    Lays.number fun count => Lays.last (takes_hash.times count) fun _ _ none =>
      first.append_nil none

omit [FixedWidth] in
/-- A message without arrays is laid out without sizes. -/
theorem lays_nothing {α : Type} {r : Reader α} {make : α → Msg} {count : Nat}
    (taken : Takes r count) (empty : ∀ a, (make a).parts = []) :
    Lays (do return make (← r)) (.skip count) fun msg => Describes msg.parts :=
  Lays.last taken fun a sizes none => by
    rw [none, empty]
    exact ⟨rfl, fun _ member => by cases member⟩

/-- What is read of a message is laid out as its code says. -/
theorem lays_msg (opcode : UInt8) : Lays (Msg.unserialize opcode) (msgLayout opcode)
    fun msg => Describes msg.parts := by
  have transaction : Takes MsgTransaction.unserialize (transactionWidth + signWidth) :=
    takes_transaction.bind fun _ => takes_sign.last
  have start : Takes MsgStart.unserialize (4 + signWidth) :=
    takes_unsigned.bind fun _ => takes_sign.last
  have vote : Takes MsgRDataCh.unserialize (75 + signWidth) :=
    takes_rdata.bind fun _ => takes_sign.last
  -- A code that no message has is not read at all.
  have stops : Lays (failure : Reader Msg) (.skip 0) fun msg => Describes msg.parts :=
    fun _ _ _ read => by cases read
  -- One case for each code, in the order in which they are compared.
  unfold Msg.unserialize msgLayout
  refine .ite (lays_nothing transaction fun _ => rfl) (.ite (lays_nothing start fun _ => rfl) ?_)
  refine .ite (lays_nothing takes_unsigned.last fun _ => rfl) ?_
  refine .ite (lays_rdata.last fun _ _ described => described) ?_
  refine .ite (lays_ldrPrepare.last fun _ _ described => described) ?_
  refine .ite (lays_rdata.last fun _ _ described => described) ?_
  refine .ite (lays_rdata.last fun _ _ described => described) ?_
  refine .ite (lays_rdata.last fun _ _ described => described) ?_
  refine .ite (lays_nothing vote fun _ => rfl) ?_
  refine .ite (lays_ldrPrepareCh.last fun _ _ described => described) ?_
  refine .ite (lays_nothing vote fun _ => rfl) ?_
  refine .ite (lays_rdataPara.last fun _ _ described => described) ?_
  refine .ite (lays_recoverPara.last fun _ _ described => described) ?_
  refine .ite (lays_ldrRecoverPara.last fun _ _ described => described) ?_
  refine .ite (lays_verifyPara.last fun _ _ described => described) ?_
  refine .ite (lays_ldrPreparePara.last fun _ _ described => described) ?_
  refine .ite (lays_rdataPara.last fun _ _ described => described) ?_
  refine .ite (lays_rdataPara.last fun _ _ described => described) ?_
  exact .ite (lays_rdataPara.last fun _ _ described => described) stops

/-- What a stream may be read as. -/
inductive Kind where
  | signs
  | block
  | pblock
  | jblock
  | msg (opcode : UInt8)
deriving DecidableEq, Repr

namespace Kind

/-- Construct a value from a stream, of which the parts with arrays are looked at. -/
def unserialize : Kind → Reader (List ArrayPart)
  | signs => do return [.signs (← Signs.unserialize)]
  | block => do return [.block (← Block.unserialize)]
  | pblock => do return [.pblock (← PBlock.unserialize)]
  | jblock => do
    let b ← JBlock.unserialize
    return [.signs b.just.signs, .jblock b]
  | msg opcode => do return (← Msg.unserialize opcode).parts

def layout : Kind → Layout
  | signs => signsLayout
  | block => blockLayout
  | pblock => pblockLayout
  | jblock => jblockLayout
  | msg opcode => msgLayout opcode

theorem lays (kind : Kind) : Lays kind.unserialize kind.layout Describes := by
  cases kind with
  | signs => exact lays_signs.last fun _ _ described => described
  | block => exact lays_block.last fun _ _ described => described
  | pblock => exact lays_pblock.last fun _ _ described => described
  | jblock => exact lays_jblock.last fun _ _ described => described
  | msg opcode => exact (lays_msg opcode).last fun _ _ described => described

end Kind

/--
Of whatever is constructed from a stream, no size is larger than its array and no loop reads past
one, exactly if no size on the stream, where the layout has it, is larger than its array.
-/
theorem unserialize_inside_iff (kind : Kind) {stream rest : Text} {parts : List ArrayPart}
    (constructed : kind.unserialize.run stream = some (parts, rest)) :
    (∀ part ∈ parts, part.size ≤ part.bound ∧ part.Inside) ↔ kind.layout.Within stream := by
  obtain ⟨-, sizes, full⟩ := kind.lays stream parts rest constructed
  have within : kind.layout.Within stream
      ↔ ∀ found ∈ sizesOf kind.layout stream, ∀ n ∈ found.1, n ≤ found.2 := by
    unfold Layout.Within sizesOf
    rw [List.forall_mem_map]
  -- The sizes on the stream are those of the parts, in the same order.
  rw [within, sizes, List.forall_mem_map]
  refine forall₂_congr fun part member => ?_
  -- A size within its array is all that the loops need.
  rw [ArrayPart.inside_iff (full part member), and_self]
  simp

omit [Scalars] [FixedWidth] [Sizes] in
/-- A proposal with sizes within its arrays, and a byte more. -/
theorem unserialize_inside_proposal :
    let _ := Scalars.littleEndian
    let _ : Sizes := ⟨3, 2, 1, 4⟩
    let signs : Signs := ⟨2, List.replicate 3 ⟨true, 1, [1, 2, 3, 4]⟩⟩
    let block : PBlock := ⟨true, Hash.default, 2, 7, List.replicate 2 ⟨5, 6, [9]⟩⟩
    let just : Just := ⟨true, .RDataPara ⟨Hash.default, 2, Hash.default, 1, PH1_NEWVIEW, 3⟩, signs⟩
    let msg : MsgLdrPreparePara := ⟨⟨just, block⟩, signs⟩
    let kind : Kind := .msg HDR_PREPARE_LDR_PARA
    kind.unserialize.run (msg.serialize ++ [8])
        = some ([.signs signs, .pblock block, .signs signs], [8])
      ∧ ((∀ part ∈ [ArrayPart.signs signs, .pblock block, .signs signs],
          part.size ≤ part.bound ∧ part.Inside) ↔ kind.layout.Within (msg.serialize ++ [8])) := by
  intro _ _ signs block just msg kind
  have : FixedWidth := fixedWidth_littleEndian
  have constructed : kind.unserialize.run (msg.serialize ++ [8])
      = some ([.signs signs, .pblock block, .signs signs], [8]) := by decide +kernel
  exact ⟨constructed, unserialize_inside_iff kind constructed⟩

omit [Scalars] [FixedWidth] [Sizes] in
/-- Three signatures are counted as four, and one transaction as two; no loop ends inside. -/
theorem unserialize_outside :
    let _ := Scalars.littleEndian
    let _ : Sizes := ⟨3, 1, 0, 4⟩
    let signs : Signs := ⟨4, List.replicate 3 ⟨true, 1, [1, 2, 3, 4]⟩⟩
    let block : PBlock := ⟨true, Hash.default, 2, 7, [⟨5, 6, []⟩]⟩
    let msg : MsgRecoverPara := ⟨.default, signs, [block]⟩
    (Kind.msg HDR_RECOVER_PARA).unserialize.run msg.serialize
        = some ([.signs signs, .pblock block], [])
      ∧ signs.verify (fun _ => some ()) (fun _ _ _ => true) [] = none
      ∧ signs.getSigners = none ∧ signs.lt signs = none ∧ signs.toString = none
      ∧ readTransactions block.size block.transactions = none := by
  decide +kernel

end Decoders

end Wire

end ParaHotstuff
