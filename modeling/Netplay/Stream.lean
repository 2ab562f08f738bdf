import Netplay.Text

/-!
# The string stream

`std::stringstream` as the lexer uses it: the bytes already read, nearest
first, the bytes still to come, and the two error bits. `get` at the end sets
both bits, `peek` at the end sets `eofbit` alone, `unget` clears `eofbit` and
steps back, and nothing has any effect once `failbit` is set.
-/

namespace Netplay

open Text

structure Stream where
  read : Bytes
  rest : Bytes
  eofbit : Bool
  failbit : Bool
  deriving DecidableEq, Repr

namespace Stream

/-- `stream_.str(exp)`. -/
def str (exp : Bytes) : Stream := ⟨[], exp, false, false⟩

/-- `stream_.get()`; `none` is `EOF`. -/
def get (s : Stream) : Option UInt8 × Stream :=
  if s.failbit || s.eofbit then (none, { s with failbit := true })
  else match s.rest with
    | [] => (none, { s with eofbit := true, failbit := true })
    | c :: r => (some c, { s with read := c :: s.read, rest := r })

/-- `stream_.peek()`. -/
def peek (s : Stream) : Option UInt8 × Stream :=
  if s.failbit then (none, s)
  else match s.rest with
    | [] => (none, { s with eofbit := true })
    | c :: _ => (some c, s)

/-- `stream_.unget()`; stepping back from the first byte fails. -/
def unget (s : Stream) : Stream :=
  if s.failbit then s
  else match s.read with
    | [] => { s with eofbit := false, failbit := true }
    | c :: r => ⟨r, c :: s.rest, false, false⟩

/-- A stream that can still be read, with `read` behind and `rest` ahead. -/
def live (read rest : Bytes) : Stream := ⟨read, rest, false, false⟩

/-- A stream whose last `get` failed. -/
def dead (read : Bytes) : Stream := ⟨read, [], true, true⟩

@[simp] theorem get_cons (l r : Bytes) (c : UInt8) :
    (live l (c :: r)).get = (some c, live (c :: l) r) := rfl
@[simp] theorem get_nil (l : Bytes) (eof : Bool) :
    (⟨l, [], eof, false⟩ : Stream).get = (none, dead l) := by cases eof <;> rfl
@[simp] theorem get_live_nil (l : Bytes) : (live l []).get = (none, dead l) := rfl
@[simp] theorem get_dead (l : Bytes) : (dead l).get = (none, dead l) := rfl
@[simp] theorem peek_cons (l r : Bytes) (c : UInt8) :
    (live l (c :: r)).peek = (some c, live l (c :: r)) := rfl
@[simp] theorem peek_nil (l : Bytes) (eof : Bool) :
    (⟨l, [], eof, false⟩ : Stream).peek = (none, ⟨l, [], true, false⟩) := rfl
@[simp] theorem peek_live_nil (l : Bytes) : (live l []).peek = (none, ⟨l, [], true, false⟩) := rfl
@[simp] theorem peek_dead (l : Bytes) : (dead l).peek = (none, dead l) := rfl
@[simp] theorem unget_live (l r : Bytes) (c : UInt8) :
    (live (c :: l) r).unget = live l (c :: r) := rfl
@[simp] theorem unget_eof (l r : Bytes) (c : UInt8) (eof : Bool) :
    (⟨c :: l, r, eof, false⟩ : Stream).unget = live l (c :: r) := rfl
@[simp] theorem unget_failed (l r : Bytes) (eof : Bool) :
    (⟨l, r, eof, true⟩ : Stream).unget = ⟨l, r, eof, true⟩ := rfl
@[simp] theorem live_rest (l r : Bytes) : (live l r).rest = r := rfl

end Stream

end Netplay
