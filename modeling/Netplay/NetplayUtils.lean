import Netplay.Expression
import Netplay.PacketFilter

/-!
# From predicates to ranges

`netplay_utils` of `netplay_utils.h`: literals, index filters, packet filters
and the reduction of a clause. Reading an unset byte of `tmp` or an entry of
`ip_prefix_mask` past its end is `undefined`.
-/

namespace Netplay.NetplayUtils

open Text

/-! ## The indexes of the packet store -/

/-- `add_index` returns `OFFSET4` and `OFFSET2` plus a counter for each length;
the constructor of `packet_store` adds the five indexes in this order. -/
def srcipIdx : Nat := 8192
def dstipIdx : Nat := 8193
def srcportIdx : Nat := 2048
def dstportIdx : Nat := 2049
def timestampIdx : Nat := 8194

/-! ## Number literals -/

def digitsValue (ds : Bytes) : Nat := ds.foldl (fun n d => 10 * n + (d.toNat - (ch '0').toNat)) 0

/-- `strtol` in base 10 before its range check: the value and the rest. -/
def strtol (s : Bytes) : Option (Int × Bytes) :=
  let s := s.dropWhile iswspace
  let (neg, s) := match s with
    | c :: r => if c = ch '-' then (true, r) else if c = ch '+' then (false, r) else (false, s)
    | [] => (false, s)
  let ds := s.takeWhile isdigit
  if ds = [] then none
  else some (if neg then -(digitsValue ds : Int) else digitsValue ds, s.dropWhile isdigit)

/-- `strtol` with the range check of a signed type of `w` bits; `none` is an exception. -/
def stoSigned (w : Nat) (s : Bytes) : Option Int :=
  match strtol s with
  | some (v, _) => if -(2 : Int) ^ (w - 1) ≤ v ∧ v < (2 : Int) ^ (w - 1) then some v else none
  | none => none

/-- `std::stoi`. -/
def stoi (s : Bytes) : Option Int := stoSigned 32 s

/-- `std::stol`. -/
def stol (s : Bytes) : Option Int := stoSigned 64 s

/-- `try { ... } catch (std::exception& e) { throw parse_exception(msg); }` -/
def orThrow (x : Option α) (msg : Bytes) : Except Fault α :=
  match x with
  | some a => .ok a
  | none => throwParse msg

@[simp] theorem orThrow_eq_ok {x : Option α} {msg : Bytes} {a : α} :
    orThrow x msg = .ok a ↔ x = some a := by
  cases x <;> simp [orThrow]

/-- An integer converted to an unsigned type of `w` bits. -/
def wrap (w : Nat) (v : Int) : Nat := (v % (2 : Int) ^ w).toNat

/-- `std::string::find`. -/
def find (pat : Bytes) : Bytes → Option Nat
  | [] => if pat = [] then some 0 else none
  | c :: s => if pat.isPrefixOf (c :: s) then some 0 else (find pat s).map (· + 1)

/-! ## Addresses -/

def ipPrefixMask : List Nat := [
  0x00000000, 0x80000000, 0xC0000000,
  0xE0000000, 0xF0000000, 0xF8000000,
  0xFC000000, 0xFE000000, 0xFF000000,
  0xFF800000, 0xFFC00000, 0xFFE00000,
  0xFFF00000, 0xFFF80000, 0xFFFC0000,
  0xFFFE0000, 0xFFFF0000, 0xFFFF8000,
  0xFFFFC000, 0xFFFFE000, 0xFFFFF000,
  0xFFFFF800, 0xFFFFFC00, 0xFFFFFE00,
  0xFFFFFF00, 0xFFFFFF80, 0xFFFFFFC0,
  0xFFFFFFE0, 0xFFFFFFF0, 0xFFFFFFF8,
  0xFFFFFFFC, 0xFFFFFFFE, 0xFFFFFFFF]

/-- The bytes that `"%hhu.%hhu. ..."` with `n` conversions stores before the first mismatch. -/
def scanBytes : Nat → Bytes → List Nat
  | 0, _ => []
  | n + 1, s => match strtol s with
    | none => []
    | some (v, r) => wrap 8 v :: match r with
      | c :: r => if c = ch '.' then scanBytes n r else []
      | [] => []

/-- `ip_string_to_uint32`; a conversion that fails leaves bytes of `tmp` unset. -/
def ipStringToUint32 (ip : Bytes) : Except Fault Nat :=
  match scanBytes 4 ip with
  | [t3, t2, t1, t0] => .ok (t0 ||| t1 <<< 8 ||| t2 <<< 16 ||| t3 <<< 24)
  | _ => .error .undefined

/-- `ip_prefix_mask[i]`. -/
def maskAt (i : Nat) : Except Fault Nat :=
  match ipPrefixMask[i]? with
  | some m => .ok m
  | none => .error .undefined

/-- `ip_range`. -/
def ipRange (ipString : Bytes) : Except Fault TokRange :=
  match ipString.findIdx? (· == ch '/') with
  | some loc => do
    let v ← orThrow (stoi (ipString.drop (loc + 1))) (lit "Malformed IP range: " ++ ipString)
    let len := wrap 32 v
    let ip ← ipStringToUint32 (ipString.take loc)
    let low ← maskAt len
    let high ← maskAt (wrap 32 (32 - (len : Int)))
    pure ⟨ip &&& low, ip ||| (2 ^ 32 - 1 - high)⟩
  | none => throwParse (lit "Malformed IP range: " ++ ipString)

/-- `ip_filter`. -/
def ipFilter (indexId : Nat) (op ipString : Bytes) : Except Fault IndexFilter :=
  if op = lit "in" then do
    let r ← ipRange ipString
    pure ⟨indexId, r⟩
  else if op = lit "!in" then do
    let r ← ipRange ipString
    pure ⟨indexId, r⟩
  else if op = lit "==" then do
    let ip ← ipStringToUint32 ipString
    pure ⟨indexId, ⟨ip, ip⟩⟩
  else if op = lit "!=" then do
    let ip ← ipStringToUint32 ipString
    pure ⟨indexId, ⟨ip, ip⟩⟩
  else throwParse (lit "Specify IP ranges with prefix notation")

/-! ## Ports and seconds -/

/-- The range for a comparison with a port; `port - 1` and `port + 1` are `int`. -/
def portRange (op : Bytes) (port : Nat) : Except Fault TokRange :=
  if op = lit "==" then pure ⟨port, port⟩
  else if op = lit "!=" then pure ⟨port, port⟩
  else if op = lit "<" then pure ⟨0, wrap 64 ((port : Int) - 1)⟩
  else if op = lit "<=" then pure ⟨0, port⟩
  else if op = lit ">" then pure ⟨port + 1, 65535⟩
  else if op = lit ">=" then pure ⟨port, 65535⟩
  else throwParse (lit "Specify port ranges with <,>,<=,>= operators")

/-- `port_filter`. -/
def portFilter (indexId : Nat) (op portString : Bytes) : Except Fault IndexFilter := do
  let v ← orThrow (stoi portString) (lit "Malformed port string: " ++ portString)
  let r ← portRange op (wrap 16 v)
  pure ⟨indexId, r⟩

/-- The second a time literal stands for, as a `uint32_t`. -/
def timeValue (op timeString : Bytes) (now : UInt32) : Except Fault Nat :=
  let malformed := lit "Malformed relative time value; format: now[-value]"
  match find (lit "now") timeString with
  | some loc =>
    if loc ≠ 0 then throwParse malformed
    else if timeString.length = 3 then
      if (find (lit ">") op).isSome then throwParse (lit "Cannot see into the future")
      else pure now.toNat
    else match find (lit "-") timeString with
      | some loc =>
        if loc = 3 then do
          let v ← orThrow (stoi (timeString.drop 4)) malformed
          pure (wrap 32 ((now.toNat : Int) - v))
        else throwParse malformed
      | none => throwParse malformed
  | none => do
    let v ← orThrow (stol timeString) malformed
    pure (wrap 32 v)

/-- The range for a comparison with a second; `time - 1` and `time + 1` wrap. -/
def timeRange (op : Bytes) (time : Nat) (now : UInt32) : Except Fault TokRange :=
  if op = lit "==" then pure ⟨time, time⟩
  else if op = lit "!=" then pure ⟨time, time⟩
  else if op = lit "<" then pure ⟨0, wrap 32 ((time : Int) - 1)⟩
  else if op = lit "<=" then pure ⟨0, time⟩
  else if op = lit ">" then pure ⟨wrap 32 ((time : Int) + 1), now.toNat⟩
  else if op = lit ">=" then pure ⟨time, now.toNat⟩
  else throwParse (lit "Specify time ranges with <,>,<=,>= operators")

/-- `time_filter`. -/
def timeFilter (indexId : Nat) (op timeString : Bytes) (now : UInt32) :
    Except Fault IndexFilter := do
  let time ← timeValue op timeString now
  let r ← timeRange op time now
  pure ⟨indexId, r⟩

/-- `build_index_filter`. -/
def buildIndexFilter (p : Predicate) (now : UInt32) : Except Fault IndexFilter :=
  if p.attr = lit "src_ip" then ipFilter srcipIdx p.op p.value
  else if p.attr = lit "dst_ip" then ipFilter dstipIdx p.op p.value
  else if p.attr = lit "src_port" then portFilter srcportIdx p.op p.value
  else if p.attr = lit "dst_port" then portFilter dstportIdx p.op p.value
  else if p.attr = lit "timestamp" then timeFilter timestampIdx p.op p.value now
  else throwParse (lit "Invaild attribute: " ++ p.attr)

/-! ## Clauses -/

/-- One round of the loop of `build_packet_filter`. -/
def setRange (pf : PacketFilter) (f : IndexFilter) : Except Fault PacketFilter :=
  if f.indexId = srcipIdx then pure { pf with srcAddr := f.tokRange }
  else if f.indexId = dstipIdx then pure { pf with dstAddr := f.tokRange }
  else if f.indexId = srcportIdx then pure { pf with srcPort := f.tokRange }
  else if f.indexId = dstportIdx then pure { pf with dstPort := f.tokRange }
  else if f.indexId = timestampIdx then pure { pf with timestamp := f.tokRange }
  else throwParse (lit "Invalid idx id " ++ toDigits f.indexId)

/-- The filter before the loop: every range is `0..UINT64_MAX`. -/
def openFilter : PacketFilter := ⟨.all, .all, .all, .all, .all⟩

/-- `build_packet_filter`. -/
def buildPacketFilter (clause : List IndexFilter) : Except Fault PacketFilter :=
  clause.foldlM setRange openFilter

/-- The inner loop of `reduce_clause`: the filters on `id` are merged into the
range and erased. -/
def mergeRange (id : Nat) (r : TokRange) : List IndexFilter → TokRange × List IndexFilter
  | [] => (r, [])
  | f :: fs =>
    if id = f.indexId then
      mergeRange id ⟨max r.first f.tokRange.first, min r.second f.tokRange.second⟩ fs
    else
      let (r, fs) := mergeRange id r fs
      (r, f :: fs)

theorem mergeRange_length (id : Nat) (r : TokRange) (fs : List IndexFilter) :
    (mergeRange id r fs).2.length ≤ fs.length := by
  induction fs generalizing r with
  | nil => simp [mergeRange]
  | cons f fs ih =>
    rw [mergeRange]
    split
    · exact Nat.le_succ_of_le (ih _)
    · simpa using ih r

/-- `reduce_clause`; `none` is `false`. -/
def reduceClause : List IndexFilter → Option (List IndexFilter)
  | [] => some []
  | f :: fs =>
    let merged := mergeRange f.indexId f.tokRange fs
    if merged.1.first ≤ merged.1.second then
      (reduceClause merged.2).map (⟨f.indexId, merged.1⟩ :: ·)
    else none
termination_by fs => fs.length
decreasing_by
  have := mergeRange_length f.indexId f.tokRange fs
  simp only [List.length_cons]
  omega

def notInDNF : Bytes := lit "Filter expression not in DNF"

/-- The loop over the children of a conjunction. -/
def buildClause (now : UInt32) : List Expression → Except Fault (List IndexFilter)
  | [] => pure []
  | .predicate p :: es => do
    let f ← buildIndexFilter p now
    let fs ← buildClause now es
    pure (f :: fs)
  | _ :: _ => throwParse notInDNF

/-- The loop over the children of a disjunction in `build_filter_list`. -/
def buildFilters (now : UInt32) : List Expression → Except Fault (List PacketFilter)
  | [] => pure []
  | .conjunction cs :: ds => do
    let clause ← buildClause now cs
    let pf ← buildPacketFilter clause
    let pfs ← buildFilters now ds
    pure (pf :: pfs)
  | _ :: _ => throwParse notInDNF

/-- `build_filter_list` at the second `now`. -/
def buildFilterList (e : Expression) (now : UInt32) : Except Fault (List PacketFilter) :=
  match e with
  | .predicate p => do
    let f ← buildIndexFilter p now
    let pf ← buildPacketFilter [f]
    pure [pf]
  | .conjunction cs => do
    let clause ← buildClause now cs
    let pf ← buildPacketFilter clause
    pure [pf]
  | .disjunction ds => buildFilters now ds
  | .negation _ => pure []

end Netplay.NetplayUtils
