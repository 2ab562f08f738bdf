import Netplay.ComparisonRange
import Netplay.FilterMeaning
import Netplay.PrefixRange

/-!
# Which values are read

`build_index_filter` reads the number at the start of a value and takes no notice of
what follows it, of a sign or of its size. It reads exactly the literals, and throws
where there is no number to read; every other value is misread.
-/

namespace Netplay

open Text NetplayUtils FilterMeaning

/-- The call ends with a `parse_exception`. -/
def Throws (x : Except Fault α) : Prop := ∃ msg, x = .error (.parse_exception msg)

/-- The seconds that a literal may denote: a decimal below 2^32, `now`, or `now-` and a
decimal not exceeding `now`. -/
inductive TimeLiteral (now : UInt32) : Bytes → Nat → Prop where
  | absolute {s : Bytes} {t : Nat} (hs : IsDecimal s t) (ht : t < 2 ^ 32) : TimeLiteral now s t
  | now : TimeLiteral now (lit "now") now.toNat
  | relative {s : Bytes} {k : Nat} (hs : IsDecimal s k) (hk : k ≤ now.toNat) :
      TimeLiteral now (lit "now-" ++ s) (now.toNat - k)

namespace Attribute

/-- The operators that the attribute supports. -/
def operators : Attribute → List Bytes
  | .srcIp | .dstIp => [lit "==", lit "!=", lit "in", lit "!in"]
  | _ => [lit "==", lit "!=", lit "<", lit "<=", lit ">", lit ">="]

def prefixOperators : List Bytes := [lit "in", lit "!in"]

/-- The whole value is a literal of the attribute. -/
def IsLiteral (op value : Bytes) (now : UInt32) : Attribute → Prop
  | .srcIp | .dstIp =>
    if op ∈ prefixOperators then ∃ ip p, IsPrefix value ip p else ∃ ip, IsAddress value ip
  | .srcPort | .dstPort => ∃ n, IsDecimal value n ∧ n ≤ 65535
  | .timestamp => ∃ t, TimeLiteral now value t

/-- The whole value is a literal, and the range is computed from its number. -/
def Reads (op value : Bytes) (now : UInt32) (r : TokRange) : Attribute → Prop
  | .srcIp | .dstIp =>
    if op ∈ prefixOperators then ∃ ip p, IsPrefix value ip p ∧ r = prefixRange ip p
    else ∃ ip, IsAddress value ip ∧ r = ⟨ip, ip⟩
  | .srcPort | .dstPort => ∃ n, IsDecimal value n ∧ n ≤ 65535 ∧ portRange op n = .ok r
  | .timestamp => ∃ t, TimeLiteral now value t ∧ timeRange op t now = .ok r

/-- There is no number where one is read: for a prefix behind the first slash, for a
port at the start, for a second at the start or behind `now-`. An address always
passes for one. `now` is not compared by `>` or `>=`. -/
def NoNumber (op value : Bytes) (now : UInt32) : Attribute → Prop
  | .srcIp | .dstIp => op ∈ prefixOperators ∧
      ∀ loc, value.findIdx? (· == ch '/') = some loc → stoi (value.drop (loc + 1)) = none
  | .srcPort | .dstPort => stoi value = none
  | .timestamp => (∀ t, ¬ TimeDenotes now value t) ∨
      value = lit "now" ∧ find (lit ">") op ≠ none

end Attribute

/-- The value is rejected, or it is a literal and read as its number. -/
def ReadExactly (a : Attribute) (op value : Bytes) (now : UInt32) : Prop :=
  Throws (buildIndexFilter ⟨name a, op, value⟩ now) ∨
    ∃ r, buildIndexFilter ⟨name a, op, value⟩ now = .ok ⟨a.index, r⟩ ∧ a.Reads op value now r

namespace LiteralReading

theorem throws_throw (msg : Bytes) : Throws (throwParse msg : Except Fault α) := ⟨msg, rfl⟩

theorem not_throws_ok (a : α) : ¬ Throws (Except.ok a : Except Fault α) := by
  rintro ⟨msg, h⟩
  cases h

theorem throws_iff {x : Except Fault α} (h : OnlyThrows x) : Throws x ↔ ¬ ∃ a, x = .ok a := by
  cases x with
  | ok a => exact iff_of_false (not_throws_ok a) (by simp)
  | error f =>
    obtain ⟨msg, rfl⟩ := h f rfl
    exact iff_of_true ⟨msg, rfl⟩ (by simp)

theorem throws_orThrow {x : Option α} {msg : Bytes} : Throws (orThrow x msg) ↔ x = none := by
  cases x with
  | none => exact iff_of_true (throws_throw msg) rfl
  | some a => exact iff_of_false (not_throws_ok a) (by simp)

/-- A bind whose second call does not throw. -/
theorem throws_bind {x : Except Fault α} {f : α → Except Fault β} (hf : ∀ a, ¬ Throws (f a)) :
    Throws (x >>= f) ↔ Throws x := by
  cases x with
  | ok a => exact iff_of_false (hf a) (not_throws_ok a)
  | error e =>
    simp only [bind, Except.bind, Throws, Except.error.injEq]

theorem throws_map {x : Except Fault α} {f : α → β} :
    Throws (x >>= fun a => pure (f a)) ↔ Throws x :=
  throws_bind fun a => not_throws_ok (f a)

/-! ## Ports -/

variable {id : Nat} {op v : Bytes} {now : UInt32}

theorem portRange_ok (hop : op ∈ Attribute.srcPort.operators) (n : Nat) :
    ∃ r, portRange op n = .ok r := by
  simp only [Attribute.operators, List.mem_cons, List.not_mem_nil, or_false] at hop
  rcases hop with rfl | rfl | rfl | rfl | rfl | rfl <;> exact ⟨_, rfl⟩

theorem timeRange_ok (hop : op ∈ Attribute.timestamp.operators) (t : Nat) (now : UInt32) :
    ∃ r, timeRange op t now = .ok r := by
  simp only [Attribute.operators, List.mem_cons, List.not_mem_nil, or_false] at hop
  rcases hop with rfl | rfl | rfl | rfl | rfl | rfl <;> exact ⟨_, rfl⟩

theorem portFilter_throws (hop : op ∈ Attribute.srcPort.operators) :
    Throws (portFilter id op v) ↔ stoi v = none := by
  rw [portFilter, throws_bind, throws_orThrow]
  intro n
  obtain ⟨r, hr⟩ := portRange_ok hop (wrap 16 n)
  rw [hr]
  exact not_throws_ok _

theorem portFilter_literal (hop : op ∈ Attribute.srcPort.operators) {n : Nat} (hv : IsDecimal v n)
    (hn : n ≤ 65535) : ∃ r, portFilter id op v = .ok ⟨id, r⟩ ∧ portRange op n = .ok r := by
  obtain ⟨r, hr⟩ := portRange_ok hop n
  have hread : stoi v = some (n : Int) := hv.stoSigned_eq (by omega)
  have hwrap : wrap 16 (n : Int) = n := wrap_of_lt (by omega)
  refine ⟨r, bind_eq_ok.mpr ⟨n, orThrow_eq_ok.mpr hread, ?_⟩, hr⟩
  rw [hwrap]
  exact bind_eq_ok.mpr ⟨r, hr, rfl⟩

/-! ## Addresses and prefixes -/

theorem ipStringToUint32_not_throws (s : Bytes) : ¬ Throws (ipStringToUint32 s) := by
  rintro ⟨msg, h⟩
  rw [ipStringToUint32] at h
  split at h <;> cases h

theorem maskAt_not_throws (i : Nat) : ¬ Throws (maskAt i) := by
  rintro ⟨msg, h⟩
  rw [maskAt] at h
  split at h <;> cases h

theorem ipRange_throws : Throws (ipRange v) ↔
    ∀ loc, v.findIdx? (· == ch '/') = some loc → stoi (v.drop (loc + 1)) = none := by
  rw [ipRange]
  split
  · next loc hloc =>
    rw [throws_bind, throws_orThrow, hloc]
    · simp
    · intro p
      rw [throws_bind]
      · exact ipStringToUint32_not_throws _
      · intro ip
        rw [throws_bind]
        · exact maskAt_not_throws _
        · intro low
          rw [throws_map]
          exact maskAt_not_throws _
  · next hnone =>
    refine iff_of_true (throws_throw _) fun loc hloc => ?_
    rw [hnone] at hloc
    cases hloc

theorem ipFilter_in (hop : op ∈ Attribute.prefixOperators) :
    ipFilter id op v = (ipRange v >>= fun r => pure ⟨id, r⟩) := by
  simp only [Attribute.prefixOperators, List.mem_cons, List.not_mem_nil, or_false] at hop
  rcases hop with rfl | rfl <;> rfl

theorem ipFilter_address (hop : op ∈ Attribute.srcIp.operators) (h : op ∉ Attribute.prefixOperators) :
    ipFilter id op v = (ipStringToUint32 v >>= fun ip => pure ⟨id, ⟨ip, ip⟩⟩) := by
  simp only [Attribute.prefixOperators, List.mem_cons, List.not_mem_nil, or_false, not_or] at h
  simp only [Attribute.operators, List.mem_cons, List.not_mem_nil, or_false] at hop
  rcases hop with rfl | rfl | rfl | rfl
  · rfl
  · rfl
  · exact absurd rfl h.1
  · exact absurd rfl h.2

/-! ## Seconds -/

theorem timeValue_onlyThrows : OnlyThrows (timeValue op v now) := by
  have hread : ∀ {x : Option Int} {msg : Bytes} {f : Int → Nat},
      OnlyThrows (orThrow x msg >>= fun a => pure (f a)) := by
    intro x msg f
    cases x with
    | none => exact onlyThrows_throw msg
    | some a => exact onlyThrows_ok _
  rw [timeValue]
  split
  · split
    · exact onlyThrows_throw _
    split
    · split
      · exact onlyThrows_throw _
      · exact onlyThrows_ok _
    split
    · split
      · exact hread
      · exact onlyThrows_throw _
    · exact onlyThrows_throw _
  · exact hread

theorem timeFilter_throws (hop : op ∈ Attribute.timestamp.operators) :
    Throws (timeFilter id op v now) ↔ (∀ t, ¬ TimeDenotes now v t) ∨
      v = lit "now" ∧ find (lit ">") op ≠ none := by
  have hbind : Throws (timeFilter id op v now) ↔ Throws (timeValue op v now) := by
    rw [timeFilter, throws_bind]
    intro t
    obtain ⟨r, hr⟩ := timeRange_ok hop t now
    rw [hr]
    exact not_throws_ok _
  rw [hbind, throws_iff timeValue_onlyThrows]
  simp only [timeValue_eq_ok]
  constructor
  · intro h
    by_cases hv : v = lit "now" ∧ find (lit ">") op ≠ none
    · exact .inr hv
    · refine .inl fun t ht => h ⟨_, t, ht, rfl, fun hnow => ?_⟩
      exact not_not.mp fun hop => hv ⟨hnow, hop⟩
  · rintro (h | ⟨hv, hop⟩) ⟨n, t, ht, -, hfuture⟩
    · exact h t ht
    · exact hop (hfuture hv)

theorem find_eq_none {c : UInt8} {pat s : Bytes} (h : c ∉ s) : find (c :: pat) s = none := by
  induction s with
  | nil => rfl
  | cons d s ih =>
    rw [List.mem_cons, not_or] at h
    have hne : (c :: pat).isPrefixOf (d :: s) = false := by
      rw [List.isPrefixOf_cons_cons, beq_eq_false_iff_ne.mpr h.1, Bool.false_and]
    rw [find, hne, ih h.2]
    rfl

theorem timeDenotes_relative {s : Bytes} {t : Int} (h : TimeDenotes now (lit "now-" ++ s) t) :
    ∃ k, stoi s = some k ∧ t = now.toNat - k := by
  generalize hv : lit "now-" ++ s = v at h
  cases h with
  | absolute hnow ht =>
    subst hv
    have hprefix : lit "now" <+: lit "now-" ++ s := ⟨ch '-' :: s, rfl⟩
    rw [find_eq_zero.mpr hprefix] at hnow
    cases hnow
  | now => exact absurd (congrArg List.length hv) (by simp [lit])
  | relative hk =>
    obtain rfl := List.append_cancel_left hv
    exact ⟨_, hk, rfl⟩

/-- A literal that is not rejected is read as its second. -/
theorem timeValue_literal {t : Nat} (h : TimeLiteral now v t) :
    Throws (timeValue op v now) ∨ timeValue op v now = .ok t := by
  by_cases hok : ∃ n, timeValue op v now = .ok n
  · right
    obtain ⟨n, hn⟩ := hok
    obtain ⟨-, -, -, hfuture⟩ := timeValue_eq_ok.mp hn
    have hread : ∀ {u : Int}, TimeDenotes now v u → timeValue op v now = .ok (wrap 32 u) :=
      fun hu => timeValue_eq_ok.mpr ⟨_, hu, rfl, hfuture⟩
    cases h with
    | absolute hs ht =>
      have hnone : find (lit "now") v = none :=
        find_eq_none fun hmem => absurd (hs.digits _ hmem) (by decide)
      have hdenotes : TimeDenotes now v (t : Int) := .absolute hnone (hs.stoSigned_eq (by omega))
      rw [hread hdenotes, wrap_of_lt ht]
    | now => rw [hread .now, wrap_of_lt now.toNat_lt]
    | relative hs hk =>
      rename_i s k
      obtain ⟨u, hu, rfl, -⟩ := timeValue_eq_ok.mp hn
      obtain ⟨k', hk', rfl⟩ := timeDenotes_relative hu
      have hbound : k < 2 ^ 31 := by
        by_contra hge
        rw [stoi, hs.stoSigned_none (by omega)] at hk'
        cases hk'
      obtain rfl : (k : Int) = k' := by
        rw [stoi, hs.stoSigned_eq hbound, Option.some.injEq] at hk'
        exact hk'
      have hsub : (now.toNat : Int) - k = ((now.toNat - k : Nat) : Int) := by omega
      rw [hread hu, hsub, wrap_of_lt (Nat.lt_of_le_of_lt (Nat.sub_le _ _) now.toNat_lt)]
  · exact .inl ((throws_iff timeValue_onlyThrows).mpr hok)

theorem timeFilter_literal (hop : op ∈ Attribute.timestamp.operators) {t : Nat}
    (h : TimeLiteral now v t) : Throws (timeFilter id op v now) ∨
      ∃ r, timeFilter id op v now = .ok ⟨id, r⟩ ∧ timeRange op t now = .ok r := by
  obtain ⟨r, hr⟩ := timeRange_ok hop t now
  have hvalue : Throws (timeValue op v now) ∨ timeValue op v now = .ok t := timeValue_literal h
  rcases hvalue with ⟨msg, hthrow⟩ | hok
  · exact .inl ⟨msg, bind_eq_error.mpr (.inl hthrow)⟩
  · exact .inr ⟨r, bind_eq_ok.mpr ⟨t, hok, bind_eq_ok.mpr ⟨r, hr, rfl⟩⟩, hr⟩

/-! ## Any attribute -/

theorem exactly_iff {x : Except Fault IndexFilter} {isLiteral noNumber : Prop}
    {reads : TokRange → Prop} (hthrows : Throws x ↔ noNumber)
    (hliteral : isLiteral → Throws x ∨ ∃ r, x = .ok ⟨id, r⟩ ∧ reads r)
    (hreads : ∀ r, reads r → isLiteral) :
    (Throws x ∨ ∃ r, x = .ok ⟨id, r⟩ ∧ reads r) ↔ isLiteral ∨ noNumber := by
  constructor
  · rintro (h | ⟨r, -, hr⟩)
    · exact .inr (hthrows.mp h)
    · exact .inl (hreads r hr)
  · rintro (h | h)
    · exact hliteral h
    · exact .inl (hthrows.mpr h)

theorem ipFilter_exactly (now : UInt32) (hop : op ∈ Attribute.srcIp.operators) :
    (Throws (ipFilter id op v) ∨
      ∃ r, ipFilter id op v = .ok ⟨id, r⟩ ∧ Attribute.srcIp.Reads op v now r) ↔
      Attribute.srcIp.IsLiteral op v now ∨ Attribute.srcIp.NoNumber op v now := by
  by_cases hpre : op ∈ Attribute.prefixOperators
  · refine exactly_iff ?_ ?_ ?_
    · rw [ipFilter_in hpre, throws_map, ipRange_throws,
        Attribute.NoNumber, and_iff_right hpre]
    · rw [Attribute.IsLiteral, if_pos hpre]
      rintro ⟨ip, p, hv⟩
      refine .inr ⟨prefixRange ip p, ?_, ?_⟩
      · rw [ipFilter_in hpre]
        exact bind_eq_ok.mpr ⟨_, hv.ipRange_eq, rfl⟩
      · rw [Attribute.Reads, if_pos hpre]
        exact ⟨ip, p, hv, rfl⟩
    · rw [Attribute.IsLiteral, if_pos hpre]
      intro r hr
      rw [Attribute.Reads, if_pos hpre] at hr
      obtain ⟨ip, p, hv, -⟩ := hr
      exact ⟨ip, p, hv⟩
  · refine exactly_iff ?_ ?_ ?_
    · rw [ipFilter_address hop hpre, throws_map]
      exact iff_of_false (ipStringToUint32_not_throws v) fun h => hpre h.1
    · rw [Attribute.IsLiteral, if_neg hpre]
      rintro ⟨ip, hv⟩
      refine .inr ⟨⟨ip, ip⟩, ?_, ?_⟩
      · rw [ipFilter_address hop hpre]
        exact bind_eq_ok.mpr ⟨_, hv.ipStringToUint32_eq, rfl⟩
      · rw [Attribute.Reads, if_neg hpre]
        exact ⟨ip, hv, rfl⟩
    · rw [Attribute.IsLiteral, if_neg hpre]
      intro r hr
      rw [Attribute.Reads, if_neg hpre] at hr
      obtain ⟨ip, hv, -⟩ := hr
      exact ⟨ip, hv⟩

theorem portFilter_exactly (now : UInt32) (hop : op ∈ Attribute.srcPort.operators) :
    (Throws (portFilter id op v) ∨
      ∃ r, portFilter id op v = .ok ⟨id, r⟩ ∧ Attribute.srcPort.Reads op v now r) ↔
      Attribute.srcPort.IsLiteral op v now ∨ Attribute.srcPort.NoNumber op v now := by
  refine exactly_iff (portFilter_throws hop) ?_ ?_
  · rintro ⟨n, hv, hn⟩
    obtain ⟨r, hok, hr⟩ := portFilter_literal hop hv hn
    exact .inr ⟨r, hok, n, hv, hn, hr⟩
  · rintro r ⟨n, hv, hn, -⟩
    exact ⟨n, hv, hn⟩

theorem timeFilter_exactly (now : UInt32) (hop : op ∈ Attribute.timestamp.operators) :
    (Throws (timeFilter id op v now) ∨
      ∃ r, timeFilter id op v now = .ok ⟨id, r⟩ ∧ Attribute.timestamp.Reads op v now r) ↔
      Attribute.timestamp.IsLiteral op v now ∨ Attribute.timestamp.NoNumber op v now := by
  refine exactly_iff (timeFilter_throws hop) ?_ ?_
  · rintro ⟨t, ht⟩
    rcases timeFilter_literal hop ht with hthrow | ⟨r, hok, hr⟩
    · exact .inl hthrow
    · exact .inr ⟨r, hok, t, ht, hr⟩
  · rintro r ⟨t, ht, -⟩
    exact ⟨t, ht⟩

end LiteralReading

open LiteralReading

/-- A value is rejected or read exactly where it is a literal, or has no number where
one is read. -/
theorem readExactly_iff {a : Attribute} {op : Bytes} (hop : op ∈ a.operators) (value : Bytes)
    (now : UInt32) : ReadExactly a op value now ↔
      a.IsLiteral op value now ∨ a.NoNumber op value now := by
  cases a with
  | srcIp | dstIp => exact ipFilter_exactly now hop
  | srcPort | dstPort => exact portFilter_exactly now hop
  | timestamp => exact timeFilter_exactly now hop

/-- A port with leading zeros, and a port without digits. -/
theorem readExactly_ports : ReadExactly .srcPort (lit "==") (lit "0080") 0 ∧
    ReadExactly .dstPort (lit "<") (lit "http") 0 :=
  ⟨(readExactly_iff (a := .srcPort) (by decide) _ _).mpr
      (.inl ⟨80, ⟨by decide, List.all_eq_true.mp (by decide), by decide⟩, by decide⟩),
    (readExactly_iff (a := .dstPort) (by decide) _ _).mpr (.inr (by decide : stoi _ = none))⟩

/-- 70000 is read as 4464, `80x` as 80 and the address 256.0.0.0 as 0.0.0.0; `1.2.3` leaves a
byte unset, and `10.0.0.0/33` reads past the end of the masks. -/
theorem misread :
    buildIndexFilter ⟨lit "src_port", lit "==", lit "70000"⟩ 0 =
      .ok ⟨srcportIdx, ⟨4464, 4464⟩⟩ ∧
    buildIndexFilter ⟨lit "src_port", lit "==", lit "80x"⟩ 0 = .ok ⟨srcportIdx, ⟨80, 80⟩⟩ ∧
    buildIndexFilter ⟨lit "src_ip", lit "==", lit "256.0.0.0"⟩ 0 = .ok ⟨srcipIdx, ⟨0, 0⟩⟩ ∧
    buildIndexFilter ⟨lit "src_ip", lit "==", lit "1.2.3"⟩ 0 = .error .undefined ∧
    buildIndexFilter ⟨lit "src_ip", lit "in", lit "10.0.0.0/33"⟩ 0 = .error .undefined ∧
    ¬ ReadExactly .srcPort (lit "==") (lit "70000") 0 ∧
    ¬ ReadExactly .srcPort (lit "==") (lit "80x") 0 ∧
    ¬ ReadExactly .srcIp (lit "==") (lit "1.2.3") 0 ∧
    ¬ ReadExactly .srcIp (lit "in") (lit "10.0.0.0/33") 0 := by
  have h1 : buildIndexFilter ⟨lit "src_port", lit "==", lit "70000"⟩ 0 =
      .ok ⟨srcportIdx, ⟨4464, 4464⟩⟩ := by decide
  have h2 : buildIndexFilter ⟨lit "src_port", lit "==", lit "80x"⟩ 0 =
      .ok ⟨srcportIdx, ⟨80, 80⟩⟩ := by decide
  have h3 : buildIndexFilter ⟨lit "src_ip", lit "==", lit "256.0.0.0"⟩ 0 =
      .ok ⟨srcipIdx, ⟨0, 0⟩⟩ := by decide
  have h4 : buildIndexFilter ⟨lit "src_ip", lit "==", lit "1.2.3"⟩ 0 = .error .undefined := by decide
  have h5 : buildIndexFilter ⟨lit "src_ip", lit "in", lit "10.0.0.0/33"⟩ 0 =
      .error .undefined := by decide
  refine ⟨h1, h2, h3, h4, h5, ?_, ?_, ?_, ?_⟩
  · rintro (⟨msg, h⟩ | ⟨r, -, n, hv, hn, -⟩)
    · cases h1.symm.trans h
    · have hvalue : 70000 = n := (by decide : digitsValue (lit "70000") = 70000).symm.trans hv.value
      omega
  · rintro (⟨msg, h⟩ | ⟨r, -, n, hv, -⟩)
    · cases h2.symm.trans h
    · exact absurd (hv.digits (ch 'x') (by decide)) (by decide)
  · rintro (⟨msg, h⟩ | ⟨r, h, -⟩)
    · cases h4.symm.trans h
    · cases h4.symm.trans h
  · rintro (⟨msg, h⟩ | ⟨r, h, -⟩)
    · cases h5.symm.trans h
    · cases h5.symm.trans h

end Netplay
