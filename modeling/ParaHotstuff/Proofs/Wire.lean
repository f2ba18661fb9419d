import ParaHotstuff.Wire.Messages

/-! Messages constructed from what was written of them are the messages that were written. -/

namespace ParaHotstuff

open Reader Sizes

variable [Scalars]

theorem reads_bool (b : Bool) : Reads getBool (putBool b) b := by
  -- A flag is written as the number 0 or 1.
  have number : Reads (Scalars.get 1) (putBool b) (if b then 1 else 0) :=
    Reads.scalar (by cases b <;> decide)
  have row := number.last (f := (· != 0))
  cases b with
  | false => exact row
  | true => exact row

theorem reads_byte (byte : UInt8) : Reads getByte (putByte byte) byte := by
  have number : Reads (Scalars.get 1) (putByte byte) byte.toNat :=
    Reads.scalar (by simpa using byte.toNat_lt)
  have row := number.last (f := UInt8.ofNat)
  rwa [UInt8.ofNat_toNat] at row

theorem reads_unsigned {n : Nat} (fits : n < wordSize) : Reads getUnsigned (putUnsigned n) n :=
  Reads.scalar fits

theorem reads_bytes {bytes : Text} {n : Nat} (size : bytes.length = n) :
    Reads (times getByte n) (bytes.flatMap putByte) ⟨bytes, size⟩ :=
  Reads.times size fun byte _ => reads_byte byte

theorem Hash.reads (h : Hash) : Reads unserialize h.serialize h :=
  (reads_bytes h.hash.size).bind (reads_bool h.set).last

theorem RData.reads {r : RData} (fits : r.Fits) : Reads unserialize r.serialize r := by
  simp only [serialize, List.append_assoc]
  exact (Hash.reads r.proph).bind ((reads_unsigned fits.propv).bind
    ((Hash.reads r.justh).bind ((reads_unsigned fits.justv).bind (reads_byte r.phase).last)))

theorem RDataPara.reads {r : RDataPara} (fits : r.Fits) : Reads unserialize r.serialize r := by
  simp only [serialize, List.append_assoc]
  exact (Hash.reads r.proph).bind ((reads_unsigned fits.propv).bind
    ((Hash.reads r.justh).bind ((reads_unsigned fits.justv).bind
      ((reads_byte r.phase).bind (reads_unsigned fits.seqNumber).last))))

section Arrays

variable [Sizes]

theorem Transaction.reads {t : Transaction} (fits : t.Fits) :
    Reads unserialize t.serialize t := by
  simp only [serialize, List.append_assoc]
  exact (reads_unsigned fits.clientid).bind ((reads_unsigned fits.transid).bind
    (reads_bytes fits.data).last)

theorem FitTransactions.reads {size : Nat} {transactions : List Transaction}
    (fits : FitTransactions size transactions) :
    Reads (times Transaction.unserialize MAX_NUM_TRANSACTIONS)
      (transactions.flatMap Transaction.serialize) ⟨transactions, fits.full⟩ :=
  Reads.times fits.full fun t member => Transaction.reads (fits.each t member)

theorem Block.reads {b : Block} (fits : b.Fits) : Reads unserialize b.serialize b := by
  simp only [serialize, List.append_assoc]
  exact (reads_bool b.set).bind ((Hash.reads b.prevHash).bind
    ((reads_unsigned fits.size).bind (FitTransactions.reads fits).last))

theorem PBlock.reads {b : PBlock} (fits : b.Fits) : Reads unserialize b.serialize b := by
  simp only [serialize, List.append_assoc]
  exact (reads_bool b.set).bind ((Hash.reads b.prevHash).bind
    ((reads_unsigned fits.transactions.size).bind ((reads_unsigned fits.seqNumber).bind
      fits.transactions.reads.last)))

end Arrays

namespace Wire

/-- The member that is read is the one whose tag was written. -/
theorem Tagged.reads {data : Tagged} (fits : data.Fits) :
    Reads (unserialize data.type) data.serialize data := by
  cases data with
  | RData rdata => exact (RData.reads fits).last
  | RDataPara rdataPara => exact (RDataPara.reads fits).last
  | other type => exact fits.elim

omit [Scalars] in
/-- The two tags are small numbers. -/
theorem Tagged.type_lt {data : Tagged} (fits : data.Fits) : data.type < wordSize := by
  cases data with
  | RData rdata => exact show 0 < wordSize by decide
  | RDataPara rdataPara => exact show 1 < wordSize by decide
  | other type => exact fits.elim

theorem MsgReply.reads {msg : MsgReply} (fits : msg.Fits) :
    Reads unserialize msg.serialize msg :=
  (reads_unsigned fits).last

variable [Sizes]

theorem Sign.reads {s : Sign} (fits : s.Fits) : Reads unserialize s.serialize s := by
  simp only [serialize, List.append_assoc]
  exact (reads_bool s.set).bind ((reads_unsigned fits.signer).bind (reads_bytes fits.sign).last)

theorem Signs.reads {s : Signs} (fits : s.Fits) : Reads unserialize s.serialize s :=
  (reads_unsigned fits.size).bind
    (Reads.times fits.full fun sign member => Sign.reads (fits.each sign member)).last

theorem Just.reads {j : Just} (fits : j.Fits) : Reads unserialize j.serialize j := by
  simp only [serialize, List.append_assoc]
  exact (reads_bool j.set).bind ((reads_unsigned (Tagged.type_lt fits.data)).bind
    ((Tagged.reads fits.data).bind (Signs.reads fits.signs).last))

theorem JBlock.reads {b : JBlock} (fits : b.Fits) : Reads unserialize b.serialize b := by
  simp only [serialize, List.append_assoc]
  exact (reads_bool b.set).bind ((reads_bool b.executed).bind ((reads_unsigned fits.view).bind
    ((Just.reads fits.just).bind ((reads_unsigned fits.transactions.size).bind
      fits.transactions.reads.last))))

theorem Proposal.reads {p : Proposal} (fits : p.Fits) : Reads unserialize p.serialize p :=
  (Just.reads fits.just).bind (Block.reads fits.block).last

theorem ParaProposal.reads {p : ParaProposal} (fits : p.Fits) :
    Reads unserialize p.serialize p :=
  (Just.reads fits.just).bind (PBlock.reads fits.block).last

section Messages

theorem MsgTransaction.reads {msg : MsgTransaction} (fits : msg.Fits) :
    Reads unserialize msg.serialize msg :=
  (Transaction.reads fits.trans).bind (Sign.reads fits.sign).last

theorem MsgStart.reads {msg : MsgStart} (fits : msg.Fits) :
    Reads unserialize msg.serialize msg :=
  (reads_unsigned fits.cid).bind (Sign.reads fits.sign).last

theorem MsgRData.reads {msg : MsgRData} (fits : msg.Fits) :
    Reads unserialize msg.serialize msg :=
  (RData.reads fits.rdata).bind (Signs.reads fits.signs).last

theorem MsgLdrPrepare.reads {msg : MsgLdrPrepare} (fits : msg.Fits) :
    Reads unserialize msg.serialize msg :=
  (Proposal.reads fits.prop).bind (Signs.reads fits.signs).last

theorem MsgRDataCh.reads {msg : MsgRDataCh} (fits : msg.Fits) :
    Reads unserialize msg.serialize msg :=
  (RData.reads fits.data).bind (Sign.reads fits.sign).last

theorem MsgLdrPrepareCh.reads {msg : MsgLdrPrepareCh} (fits : msg.Fits) :
    Reads unserialize msg.serialize msg :=
  (JBlock.reads fits.block).bind (Sign.reads fits.sign).last

theorem MsgRDataPara.reads {msg : MsgRDataPara} (fits : msg.Fits) :
    Reads unserialize msg.serialize msg :=
  (RDataPara.reads fits.rdata).bind (Signs.reads fits.signs).last

theorem MsgRecoverPara.reads {msg : MsgRecoverPara} (fits : msg.Fits) :
    Reads unserialize msg.serialize msg := by
  simp only [serialize, List.append_assoc]
  -- The blocks are read back by as many reads as their number says.
  have blocks := Reads.times rfl fun block member => PBlock.reads (fits.blocks block member)
  exact (RDataPara.reads fits.rdata).bind ((Signs.reads fits.signs).bind
    ((reads_unsigned fits.size).bind blocks.last))

theorem MsgLdrRecoverPara.reads {msg : MsgLdrRecoverPara} (fits : msg.Fits) :
    Reads unserialize msg.serialize msg := by
  simp only [serialize, List.append_assoc]
  have missing := Reads.times rfl fun seq member => reads_unsigned (fits.missingSeqNumbers seq member)
  exact (RDataPara.reads fits.rdata).bind ((Signs.reads fits.signs).bind
    ((reads_unsigned fits.size).bind missing.last))

theorem MsgVerifyPara.reads {msg : MsgVerifyPara} (fits : msg.Fits) :
    Reads unserialize msg.serialize msg := by
  simp only [serialize, List.append_assoc]
  have hashes := Reads.times rfl fun h (_ : h ∈ msg.blockHashes) => Hash.reads h
  exact (RDataPara.reads fits.rdata).bind ((Signs.reads fits.signs).bind
    ((Reads.scalar fits.size).bind hashes.last))

theorem MsgLdrPreparePara.reads {msg : MsgLdrPreparePara} (fits : msg.Fits) :
    Reads unserialize msg.serialize msg :=
  (ParaProposal.reads fits.prop).bind (Signs.reads fits.signs).last

end Messages

/--
Every message is constructed again from what was written of it.

The code of its kind and the bytes written determine it, whatever follows on the stream,
and exactly the bytes written are taken off the stream.
-/
theorem roundTrip (msg : Msg) (fits : msg.Fits) (rest : Text) :
    (Msg.unserialize msg.opcode).run (msg.serialize ++ rest) = some (msg, rest) := by
  -- One case for each kind of message, by the row of reads of that kind.
  suffices row : Reads (Msg.unserialize msg.opcode) msg.serialize msg from row rest
  cases msg with
  | transaction msg => exact (MsgTransaction.reads fits).last
  | start msg => exact (MsgStart.reads fits).last
  | reply msg => exact (MsgReply.reads fits).last
  | newView msg => exact (MsgRData.reads fits).last
  | ldrPrepare msg => exact (MsgLdrPrepare.reads fits).last
  | prepare msg => exact (MsgRData.reads fits).last
  | preCommit msg => exact (MsgRData.reads fits).last
  | commit msg => exact (MsgRData.reads fits).last
  | newViewCh msg => exact (MsgRDataCh.reads fits).last
  | ldrPrepareCh msg => exact (MsgLdrPrepareCh.reads fits).last
  | prepareCh msg => exact (MsgRDataCh.reads fits).last
  | newViewPara msg => exact (MsgRDataPara.reads fits).last
  | recoverPara msg => exact (MsgRecoverPara.reads fits).last
  | ldrRecoverPara msg => exact (MsgLdrRecoverPara.reads fits).last
  | verifyPara msg => exact (MsgVerifyPara.reads fits).last
  | ldrPreparePara msg => exact (MsgLdrPreparePara.reads fits).last
  | preparePara msg => exact (MsgRDataPara.reads fits).last
  | preCommitPara msg => exact (MsgRDataPara.reads fits).last
  | commitPara msg => exact (MsgRDataPara.reads fits).last

/-- Three signatures, a proposal on a justification, and a block of two transactions. -/
def oneProposal : MsgLdrPreparePara :=
  let sign : Sign := ⟨true, 1, [1, 2, 3, 4]⟩
  let signs : Signs := ⟨1, List.replicate 3 sign⟩
  let block : PBlock := ⟨true, Hash.default, 1, 7, List.replicate 2 ⟨5, 6, [9]⟩⟩
  ⟨⟨⟨true, .RDataPara ⟨Hash.default, 2, Hash.ofBool false, 1, PH1_NEWVIEW, 3⟩, signs⟩, block⟩, signs⟩

omit [Scalars] [Sizes] in
/-- A proposal of the parallel protocol in little-endian numbers comes back as it was. -/
theorem roundTrip_oneProposal :
    let _ := Scalars.littleEndian
    let _ : Sizes := ⟨3, 2, 1, 4⟩
    (Msg.unserialize HDR_PREPARE_LDR_PARA).run (oneProposal.serialize ++ [8])
      = some (.ldrPreparePara oneProposal, [8]) := by
  intro _ _
  have signs : Signs.Fits ⟨1, List.replicate 3 ⟨true, 1, [1, 2, 3, 4]⟩⟩ :=
    ⟨by decide, rfl, fun s member => by
      rw [List.eq_of_mem_replicate member]
      exact ⟨by decide, rfl⟩⟩
  have transactions : FitTransactions 1 (List.replicate 2 ⟨5, 6, [9]⟩) :=
    ⟨by decide, rfl, fun t member => by
      rw [List.eq_of_mem_replicate member]
      exact ⟨by decide, by decide, rfl⟩⟩
  have fits : Msg.Fits (.ldrPreparePara oneProposal) :=
    ⟨⟨⟨⟨by decide, by decide, by decide⟩, signs⟩, ⟨by decide, transactions⟩⟩, signs⟩
  exact roundTrip (.ldrPreparePara oneProposal) fits [8]

end Wire

end ParaHotstuff
