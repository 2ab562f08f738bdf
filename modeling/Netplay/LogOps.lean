import Netplay.LogStore

/-!
# What the operations of an insertion leave behind

An entry of the offset log and the bytes of a record stay until an operation
writes the same entry or some of the same bytes.
-/

namespace Netplay

namespace LogOp

variable {D : Type} [Datalog D]

/-- The operation's entry, or its bytes, are there. -/
def Written (st : LogStore D) : LogOp → Prop
  | .set id offset length => st.olog.offlens id = some (packOfflen offset length)
  | .append bytes offset => Datalog.read st.dlog offset bytes.length = bytes
  | .index _ _ => True

/-- The operations do not write the same entry or the same bytes. -/
def Independent : LogOp → LogOp → Prop
  | .set id _ _, .set id' _ _ => id ≠ id'
  | .append bytes offset, .append bytes' offset' =>
    Block.Apart ⟨offset, bytes.length⟩ ⟨offset', bytes'.length⟩
  | _, _ => True

theorem written_runOp_self {st st' : LogStore D} {op : LogOp} (h : st.runOp op = .ok st') :
    op.Written st' := by
  cases op with
  | set id offset length =>
    obtain ⟨-, rfl⟩ := LogStore.setOfflen_eq h
    simp [Written]
  | append bytes offset =>
    obtain ⟨-, rfl⟩ := LogStore.appendRecord_eq h
    exact Datalog.read_write_self _ _ _
  | index id tokens => trivial

theorem Written.of_logs {st st' : LogStore D} {op : LogOp} (h : op.Written st)
    (ho : st'.olog.offlens = st.olog.offlens) (hd : st'.dlog = st.dlog) : op.Written st' := by
  cases op with
  | set id offset length => exact (congrFun ho id).trans h
  | append bytes offset => exact (congrArg (Datalog.read · offset bytes.length) hd).trans h
  | index id tokens => trivial

/-- What is written stays under an operation that does not overlap it. -/
theorem Written.runOp {st st' : LogStore D} {op op' : LogOp} (h : op.Written st)
    (hi : op.Independent op') (hrun : st.runOp op' = .ok st') : op.Written st' := by
  cases op' with
  | set id' offset' length' =>
    obtain ⟨-, rfl⟩ := LogStore.setOfflen_eq hrun
    cases op with
    | set id offset length =>
      have hne : id ≠ id' := hi
      simpa [Written, hne] using h
    | append bytes offset => exact h
    | index id tokens => trivial
  | append bytes' offset' =>
    obtain ⟨-, rfl⟩ := LogStore.appendRecord_eq hrun
    cases op with
    | set id offset length => exact h
    | append bytes offset =>
      exact (Datalog.read_write_other _ _ _ _ _ (Block.Apart.symm hi)).trans h
    | index id tokens => trivial
  | index id' tokens' =>
    have hframe := LogStore.updateIndexes_frame hrun
    exact h.of_logs (by rw [hframe]) (by rw [hframe])

/-- The ids and the bytes that the operation writes lie in the blocks. -/
def Within (ids bytes : Block) : LogOp → Prop
  | .set id _ _ => ids.Holds id
  | .append data offset => Block.Inside ⟨offset, data.length⟩ bytes
  | .index _ _ => True

theorem Independent.of_within {ids ids' bytes bytes' : Block} {op op' : LogOp}
    (h : op.Within ids bytes) (h' : op'.Within ids' bytes') (hi : ids.Apart ids')
    (hb : bytes.Apart bytes') : op.Independent op' := by
  cases op with
  | set id offset length =>
    cases op' with
    | set id' offset' length' =>
      rintro rfl
      exact hi id h h'
    | _ => trivial
  | append data offset =>
    cases op' with
    | append data' offset' => exact fun i hi hi' => hb i (h.holds hi) (h'.holds hi')
    | _ => trivial
  | index id tokens => cases op' <;> trivial

end LogOp

namespace LogStore

variable {D : Type} [Datalog D]

/-- The record with the id can be fetched, and its entry and its bytes are those given. -/
theorem get_of_written {st : LogStore D} {id offset : Nat} {bytes : List UInt8} (junk : Nat)
    (hv : id < st.olog.writeId) (hs : LogOp.Written st (.set id offset bytes.length))
    (ha : LogOp.Written st (.append bytes offset)) (ho : offset < 2 ^ 48) :
    st.olog.lookup junk id = (offset, bytes.length) ∧ st.get junk id = some bytes := by
  have hlook : st.olog.lookup junk id = (offset, bytes.length) := by
    have hentry : st.olog.offlens id = some (packOfflen offset bytes.length) := hs
    rw [OffsetLog.lookup, hentry, Option.getD_some, unpack_packOfflen ho]
  have hvalid : st.olog.isValid id = true := decide_eq_true hv
  refine ⟨hlook, ?_⟩
  rw [get, if_pos hvalid, hlook]
  exact congrArg some ha

end LogStore

end Netplay
