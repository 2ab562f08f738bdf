import Netplay.Attribute

/-!
# What filters select

A clause can be driven through any of its filters; the choice shows only on
packets without TCP or UDP ports. A filter list built for a complex character
keeps the last predicate on each attribute and never looks at the second.
-/

namespace Netplay.FilterMeaning

open Text Packet NetplayUtils

/-! ## The filter that drives the scan -/

/-- The packet is selected when `f` drives the scan and `others` are its packet
filter. -/
def Selected (pkt : Memory) (ts : UInt32) (f : IndexFilter) (others : List IndexFilter) : Prop :=
  (∃ tok, (f.indexId, tok) ∈ listedKeys pkt ts.toNat ∧ f.tokRange.Contains tok) ∧
    ∃ pf, buildPacketFilter others = .ok pf ∧ pf.apply pkt ts = true

theorem listed_iff (pkt : Memory) (ts : UInt32) (f : IndexFilter) :
    (∃ tok, (f.indexId, tok) ∈ listedKeys pkt ts.toNat ∧ f.tokRange.Contains tok) ↔
      (f.OnPort → HasPorts pkt) ∧ f.Satisfied pkt ts := by
  constructor
  · rintro ⟨tok, hmem, hin⟩
    obtain ⟨a, ha, hport, rfl⟩ := (mem_listedKeys _ _ _ _).mp hmem
    exact ⟨fun h => hport ((IndexFilter.onPort_iff ha).mp h), a, ha, hin⟩
  · rintro ⟨hport, a, ha, hin⟩
    exact ⟨_, (mem_listedKeys _ _ _ _).mpr
      ⟨a, ha, fun h => hport ((IndexFilter.onPort_iff ha).mpr h), rfl⟩, hin⟩

/-- With one filter an attribute, the last filter on it is the only one. -/
theorem latest_of_nodup {clause : List IndexFilter} (hnd : (clause.map (·.indexId)).Nodup)
    {a : Attribute} {f : IndexFilter} (hf : f ∈ clause) (ha : f.indexId = a.index) :
    latest a clause = some f.tokRange := by
  induction clause with
  | nil => simp at hf
  | cons g gs ih =>
    simp only [List.map_cons, List.nodup_cons, List.mem_map, not_exists, not_and] at hnd
    rw [latest]
    rcases List.mem_cons.mp hf with rfl | hf
    · have hnone : latest a gs = none :=
        latest_eq_none.mpr fun g hg he => hnd.1 g hg (he.trans ha.symm)
      simp [hnone, ha]
    · simp [ih hnd.2 hf]

/-- The packet filter of a clause tests each of its filters, those on ports with
TCP and UDP only. -/
theorem built_apply_iff {clause : List IndexFilter} (hnd : (clause.map (·.indexId)).Nodup)
    (pkt : Memory) (ts : UInt32) :
    (∃ pf, buildPacketFilter clause = .ok pf ∧ pf.apply pkt ts = true) ↔
      ∀ f ∈ clause, (∃ a : Attribute, f.indexId = a.index) ∧
        ((f.OnPort → HasPorts pkt) → f.Satisfied pkt ts) := by
  constructor
  · rintro ⟨pf, hpf, happ⟩ f hf
    obtain ⟨hids, hr⟩ := buildPacketFilter_eq_ok.mp hpf
    obtain ⟨a, ha⟩ := hids f hf
    refine ⟨⟨a, ha⟩, fun hport => ⟨a, ha, ?_⟩⟩
    have := (PacketFilter.apply_ranges pf pkt ts).mp happ a
      fun h => hport ((IndexFilter.onPort_iff ha).mpr h)
    rwa [hr a, latest_of_nodup hnd hf ha] at this
  · intro h
    obtain ⟨pf, hpf⟩ := exists_packetFilter fun f hf => (h f hf).1
    refine ⟨pf, hpf, (PacketFilter.apply_ranges pf pkt ts).mpr fun a hport => ?_⟩
    rw [(buildPacketFilter_eq_ok.mp hpf).2 a]
    cases hl : latest a clause with
    | none => exact TokRange.contains_all (Nat.lt_trans (a.value_lt pkt ts) (by decide))
    | some r =>
      obtain ⟨b, hb, hin⟩ := (h _ (latest_mem hl)).2 fun hp =>
        hport ((IndexFilter.onPort_iff rfl).mp hp)
      obtain rfl := Attribute.index_injective hb
      exact hin

theorem nodup_erase {clause : List IndexFilter} (hnd : (clause.map (·.indexId)).Nodup)
    (f : IndexFilter) : ((clause.erase f).map (·.indexId)).Nodup :=
  hnd.sublist (List.Sublist.map _ List.erase_sublist)

/-- Selection through `f`, filter by filter. -/
theorem selected_iff {clause : List IndexFilter} (hnd : (clause.map (·.indexId)).Nodup)
    {f : IndexFilter} (hf : f ∈ clause) (pkt : Memory) (ts : UInt32) :
    Selected pkt ts f (clause.erase f) ↔ (f.OnPort → HasPorts pkt) ∧
      ∀ g ∈ clause, (∃ a : Attribute, g.indexId = a.index) ∧
        ((g.OnPort → HasPorts pkt) → g.Satisfied pkt ts) := by
  rw [Selected, listed_iff, built_apply_iff (nodup_erase hnd f)]
  constructor
  · rintro ⟨⟨hport, hsat⟩, hrest⟩
    refine ⟨hport, fun g hg => ?_⟩
    by_cases he : g = f
    · subst he
      obtain ⟨a, ha, -⟩ := id hsat
      exact ⟨⟨a, ha⟩, fun _ => hsat⟩
    · exact hrest g ((List.mem_erase_of_ne he).mpr hg)
  · rintro ⟨hport, hall⟩
    exact ⟨⟨hport, (hall f hf).2 hport⟩, fun g hg => hall g (List.mem_of_mem_erase hg)⟩

/-- Two choices of the driving filter agree on a packet exactly if it carries
TCP or UDP, or both or neither filter is on a port, or some other filter
rejects the packet in any case. -/
theorem choice_invisible_iff {clause : List IndexFilter}
    (hnd : (clause.map (·.indexId)).Nodup) {f g : IndexFilter} (hf : f ∈ clause) (hg : g ∈ clause)
    (pkt : Memory) (ts : UInt32) :
    (Selected pkt ts f (clause.erase f) ↔ Selected pkt ts g (clause.erase g)) ↔
      HasPorts pkt ∨ (f.OnPort ↔ g.OnPort) ∨
        ∃ h ∈ clause, ¬ h.OnPort ∧ ¬ h.Satisfied pkt ts := by
  rw [selected_iff hnd hf, selected_iff hnd hg]
  by_cases hp : HasPorts pkt
  · simp [hp]
  · simp only [hp, imp_false, false_or]
    by_cases hbad : ∃ h ∈ clause, ¬ h.OnPort ∧ ¬ h.Satisfied pkt ts
    · obtain ⟨h, hh, hno, hun⟩ := hbad
      have hnot : ¬ ∀ k ∈ clause, (∃ a : Attribute, k.indexId = a.index) ∧
          (¬ k.OnPort → k.Satisfied pkt ts) := fun hall => hun ((hall h hh).2 hno)
      exact iff_of_true (by simp only [hnot, and_false]) (.inr ⟨h, hh, hno, hun⟩)
    · have hall : ∀ k ∈ clause, (∃ a : Attribute, k.indexId = a.index) ∧
          (¬ k.OnPort → k.Satisfied pkt ts) := by
        intro k hk
        by_cases hkp : k.OnPort
        · refine ⟨?_, fun h => absurd hkp h⟩
          rcases hkp with h | h
          · exact ⟨.srcPort, h⟩
          · exact ⟨.dstPort, h⟩
        · have hsat : k.Satisfied pkt ts := by
            by_contra hun
            exact hbad ⟨k, hk, hkp, hun⟩
          obtain ⟨a, ha, -⟩ := id hsat
          exact ⟨⟨a, ha⟩, fun _ => hsat⟩
      simp only [hbad, or_false, and_iff_left hall]
      exact not_iff_not

/-- A packet of the protocol, all of its other bytes zero. -/
def bare (proto : UInt8) : Memory := fun a => if a = etherHdr + 9 then proto else 0

def icmpPkt : Memory := bare 1
def tcpPkt : Memory := bare 6

def anySource : IndexFilter := ⟨srcipIdx, .all⟩
def anySourcePort : IndexFilter := ⟨srcportIdx, .all⟩

/-- Through the source address the ICMP packet is found, through the port it is not. -/
theorem choice_visible :
    ¬ (Selected icmpPkt 0 anySource ([anySource, anySourcePort].erase anySource) ↔
      Selected icmpPkt 0 anySourcePort ([anySource, anySourcePort].erase anySourcePort)) := by
  have hport : ¬ HasPorts icmpPkt := by decide
  intro h
  have hsel : Selected icmpPkt 0 anySource ([anySource, anySourcePort].erase anySource) :=
    ⟨⟨0, by decide, by decide⟩, _, rfl, by decide⟩
  obtain ⟨⟨tok, hmem, -⟩, -⟩ := h.mp hsel
  obtain ⟨a, ha, hp, -⟩ := (mem_listedKeys _ _ _ _).mp hmem
  exact hport (hp ((IndexFilter.onPort_iff ha).mp (.inl rfl)))

theorem choice_invisible_tcp :
    Selected tcpPkt 0 anySource ([anySource, anySourcePort].erase anySource) ↔
      Selected tcpPkt 0 anySourcePort ([anySource, anySourcePort].erase anySourcePort) :=
  (choice_invisible_iff (by decide) (by decide) (by decide) tcpPkt 0).mpr (.inl (by decide))

/-! ## The filter list of a complex character -/

/-- The disjuncts of an expression in disjunctive normal form. -/
def predicates : List Expression → List Predicate
  | [] => []
  | .predicate p :: es => p :: predicates es
  | _ :: es => predicates es

def disjunctsOr : List Expression → List (List Predicate)
  | [] => []
  | .conjunction cs :: ds => predicates cs :: disjunctsOr ds
  | _ :: ds => disjunctsOr ds

def disjuncts : Expression → List (List Predicate)
  | .predicate p => [[p]]
  | .conjunction cs => [predicates cs]
  | .disjunction ds => disjunctsOr ds
  | .negation _ => []

/-- The packet's value of the predicate's attribute lies in the range that
`build_index_filter` gives. -/
def Holds (now : UInt32) (pkt : Memory) (ts : UInt32) (p : Predicate) : Prop :=
  ∃ f, buildIndexFilter p now = .ok f ∧ f.Satisfied pkt ts

/-- In the disjunct, the last predicate on each attribute other than the second holds. -/
def LastHold (now : UInt32) (pkt : Memory) (ts : UInt32) : List Predicate → Prop
  | [] => True
  | p :: ps => LastHold now pkt ts ps ∧
      ((∀ q ∈ ps, q.attr ≠ p.attr) → p.attr ≠ lit "timestamp" → Holds now pkt ts p)

theorem lastHold_of_forall {now : UInt32} {pkt : Memory} {ts : UInt32} {d : List Predicate}
    (h : ∀ p ∈ d, Holds now pkt ts p) : LastHold now pkt ts d := by
  induction d with
  | nil => trivial
  | cons p ps ih => exact ⟨ih fun q hq => h q (by simp [hq]), fun _ _ => h p (by simp)⟩

/-- The attribute a predicate names. -/
def named (attr : Bytes) : Option Attribute :=
  if attr = lit "src_ip" then some .srcIp
  else if attr = lit "dst_ip" then some .dstIp
  else if attr = lit "src_port" then some .srcPort
  else if attr = lit "dst_port" then some .dstPort
  else if attr = lit "timestamp" then some .timestamp
  else none

/-- The name of an attribute in a predicate. -/
def name : Attribute → Bytes
  | .srcIp => lit "src_ip"
  | .dstIp => lit "dst_ip"
  | .srcPort => lit "src_port"
  | .dstPort => lit "dst_port"
  | .timestamp => lit "timestamp"

theorem named_eq_some {attr : Bytes} {a : Attribute} (h : named attr = some a) :
    attr = name a := by
  simp only [named] at h
  split at h
  · next he => cases h; exact he
  split at h
  · next he => cases h; exact he
  split at h
  · next he => cases h; exact he
  split at h
  · next he => cases h; exact he
  split at h
  · next he => cases h; exact he
  · cases h

theorem ipFilter_index {id : Nat} {op v : Bytes} {f : IndexFilter} (h : ipFilter id op v = .ok f) :
    f.indexId = id := by
  simp only [ipFilter] at h
  split at h
  · obtain ⟨r, -, h1⟩ := bind_eq_ok.mp h
    cases h1; rfl
  split at h
  · obtain ⟨r, -, h1⟩ := bind_eq_ok.mp h
    cases h1; rfl
  split at h
  · obtain ⟨r, -, h1⟩ := bind_eq_ok.mp h
    cases h1; rfl
  split at h
  · obtain ⟨r, -, h1⟩ := bind_eq_ok.mp h
    cases h1; rfl
  · simp at h

theorem portFilter_index {id : Nat} {op v : Bytes} {f : IndexFilter}
    (h : portFilter id op v = .ok f) : f.indexId = id := by
  obtain ⟨_, -, h1⟩ := bind_eq_ok.mp h
  obtain ⟨r, -, h2⟩ := bind_eq_ok.mp h1
  cases h2; rfl

theorem timeFilter_index {id : Nat} {op v : Bytes} {now : UInt32} {f : IndexFilter}
    (h : timeFilter id op v now = .ok f) : f.indexId = id := by
  obtain ⟨_, -, h1⟩ := bind_eq_ok.mp h
  obtain ⟨r, -, h2⟩ := bind_eq_ok.mp h1
  cases h2; rfl

theorem buildIndexFilter_named (p : Predicate) (now : UInt32) :
    buildIndexFilter p now = match named p.attr with
      | some .srcIp => ipFilter srcipIdx p.op p.value
      | some .dstIp => ipFilter dstipIdx p.op p.value
      | some .srcPort => portFilter srcportIdx p.op p.value
      | some .dstPort => portFilter dstportIdx p.op p.value
      | some .timestamp => timeFilter timestampIdx p.op p.value now
      | none => throwParse (lit "Invaild attribute: " ++ p.attr) := by
  simp only [buildIndexFilter, named]
  by_cases h1 : p.attr = lit "src_ip"
  · rw [if_pos h1, if_pos h1]
  rw [if_neg h1, if_neg h1]
  by_cases h2 : p.attr = lit "dst_ip"
  · rw [if_pos h2, if_pos h2]
  rw [if_neg h2, if_neg h2]
  by_cases h3 : p.attr = lit "src_port"
  · rw [if_pos h3, if_pos h3]
  rw [if_neg h3, if_neg h3]
  by_cases h4 : p.attr = lit "dst_port"
  · rw [if_pos h4, if_pos h4]
  rw [if_neg h4, if_neg h4]
  by_cases h5 : p.attr = lit "timestamp"
  · rw [if_pos h5, if_pos h5]
  rw [if_neg h5, if_neg h5]

/-- The index of a filter is that of the attribute its predicate names. -/
theorem buildIndexFilter_index {p : Predicate} {now : UInt32} {f : IndexFilter}
    (h : buildIndexFilter p now = .ok f) :
    ∃ a : Attribute, named p.attr = some a ∧ f.indexId = a.index := by
  rw [buildIndexFilter_named] at h
  cases ha : named p.attr with
  | none => simp [ha] at h
  | some a =>
    rw [ha] at h
    refine ⟨a, rfl, ?_⟩
    cases a with
    | srcIp => exact ipFilter_index h
    | dstIp => exact ipFilter_index h
    | srcPort => exact portFilter_index h
    | dstPort => exact portFilter_index h
    | timestamp => exact timeFilter_index h

section

variable {v op : Bytes} {f : IndexFilter}

/-- Without a number at its start a value is no address. -/
theorem ipStringToUint32_unread (h : strtol v = none) : ipStringToUint32 v = .error .undefined := by
  rw [ipStringToUint32, scanBytes, h]

theorem ipRange_unread (hnum : ∀ n, strtol (v.take n) = none) (r : TokRange) : ipRange v ≠ .ok r := by
  intro h
  rw [ipRange] at h
  split at h
  · next loc _ =>
    obtain ⟨u, -, h⟩ := bind_eq_ok.mp h
    obtain ⟨ip, hip, -⟩ := bind_eq_ok.mp h
    rw [ipStringToUint32_unread (hnum loc)] at hip
    cases hip
  · exact throwParse_ne_ok _ _ h

theorem ipFilter_unread (hnum : ∀ n, strtol (v.take n) = none) (hwhole : strtol v = none)
    (id : Nat) : ipFilter id op v ≠ .ok f := by
  intro h
  rw [ipFilter, ipStringToUint32_unread hwhole] at h
  split at h
  · obtain ⟨r, hr, -⟩ := bind_eq_ok.mp h
    exact ipRange_unread hnum r hr
  split at h
  · obtain ⟨r, hr, -⟩ := bind_eq_ok.mp h
    exact ipRange_unread hnum r hr
  split at h
  · cases h
  split at h
  · cases h
  · exact throwParse_ne_ok _ _ h

theorem portFilter_unread (hwhole : strtol v = none) (id : Nat) : portFilter id op v ≠ .ok f := by
  intro h
  obtain ⟨u, hu, -⟩ := bind_eq_ok.mp h
  rw [stoi, stoSigned, hwhole] at hu
  exact throwParse_ne_ok _ _ hu

theorem timeFilter_unread (hwhole : strtol v = none) (hnow : find (lit "now") v ≠ some 0)
    (id : Nat) (now : UInt32) : timeFilter id op v now ≠ .ok f := by
  intro h
  obtain ⟨t, ht, -⟩ := bind_eq_ok.mp h
  rw [timeValue] at ht
  split at ht
  · next loc hloc =>
    have h0 : loc ≠ 0 := fun h0 => hnow (by rw [hloc, h0])
    rw [if_pos h0] at ht
    exact throwParse_ne_ok _ _ ht
  · obtain ⟨u, hu, -⟩ := bind_eq_ok.mp ht
    rw [stol, stoSigned, hwhole] at hu
    exact throwParse_ne_ok _ _ hu

end

/-- A value without a number at its start, in front of a `/` or as a whole, and
without a `now` there is not accepted. -/
theorem buildIndexFilter_unread {p : Predicate} (hnum : ∀ n, strtol (p.value.take n) = none)
    (hnow : find (lit "now") p.value ≠ some 0) (now : UInt32) (f : IndexFilter) :
    buildIndexFilter p now ≠ .ok f := by
  intro h
  have hwhole : strtol p.value = none := by
    have := hnum p.value.length
    rwa [List.take_length] at this
  rw [buildIndexFilter_named] at h
  cases ha : named p.attr with
  | none => simp [ha] at h
  | some a =>
    simp only [ha] at h
    cases a with
    | srcIp | dstIp => exact ipFilter_unread hnum hwhole _ h
    | srcPort | dstPort => exact portFilter_unread hwhole _ h
    | timestamp => exact timeFilter_unread hwhole hnow _ _ h

/-- The filters of a clause, predicate by predicate. -/
abbrev Builds (now : UInt32) : List Predicate → List IndexFilter → Prop :=
  List.Forall₂ fun p f => buildIndexFilter p now = .ok f

theorem buildClause_builds {now : UInt32} {es : List Expression} {fs : List IndexFilter}
    (h : buildClause now es = .ok fs) : Builds now (predicates es) fs := by
  induction es generalizing fs with
  | nil => cases h; exact .nil
  | cons e es ih =>
    cases e with
    | predicate p =>
      obtain ⟨f, hf, h1⟩ := bind_eq_ok.mp h
      obtain ⟨gs, hgs, h2⟩ := bind_eq_ok.mp h1
      cases h2
      exact .cons hf (ih hgs)
    | _ => simp [buildClause] at h

theorem holds_iff {now : UInt32} {pkt : Memory} {ts : UInt32} {p : Predicate} {f : IndexFilter}
    (h : buildIndexFilter p now = .ok f) : Holds now pkt ts p ↔ f.Satisfied pkt ts := by
  simp [Holds, h]

theorem builds_latest_none {now : UInt32} {ps : List Predicate} {fs : List IndexFilter}
    (h : Builds now ps fs) {a : Attribute} :
    latest a fs = none ↔ ∀ q ∈ ps, q.attr ≠ name a := by
  induction h with
  | nil => simp [latest]
  | @cons p f ps fs hpf _ ih =>
    obtain ⟨b, hb, hid⟩ := buildIndexFilter_index hpf
    have hname : p.attr = name a ↔ b = a := by
      constructor
      · intro he
        have : named (name a) = some a := by cases a <;> rfl
        rw [he, this] at hb
        exact (Option.some.inj hb).symm
      · rintro rfl
        exact named_eq_some hb
    have hindex : b.index = a.index ↔ b = a :=
      ⟨Attribute.index_injective, fun h => h ▸ rfl⟩
    simp [latest, ih, hid, hindex, hname, and_comm]

/-- The packet filter of a clause tests the last predicate on each attribute. -/
theorem lastHold_iff {now : UInt32} {ps : List Predicate} {fs : List IndexFilter}
    (h : Builds now ps fs) (pkt : Memory) (ts : UInt32) :
    LastHold now pkt ts ps ↔ ∀ a : Attribute, a ≠ .timestamp → ∀ r, latest a fs = some r →
      r.Contains (a.value pkt ts) := by
  induction h with
  | nil => simp [LastHold, latest]
  | @cons p f ps fs hpf hrest ih =>
    obtain ⟨b, hb, hid⟩ := buildIndexFilter_index hpf
    have hlater : (∀ q ∈ ps, q.attr ≠ p.attr) ↔ latest b fs = none := by
      rw [builds_latest_none hrest, named_eq_some hb]
    have hts : p.attr ≠ lit "timestamp" ↔ b ≠ .timestamp := by
      rw [named_eq_some hb]
      cases b <;> decide
    have hsat : Holds now pkt ts p ↔ f.tokRange.Contains (b.value pkt ts) := by
      rw [holds_iff hpf]
      constructor
      · rintro ⟨c, hc, hin⟩
        obtain rfl := Attribute.index_injective (hid.symm.trans hc)
        exact hin
      · exact fun hin => ⟨b, hid, hin⟩
    rw [LastHold, ih, hlater, hts, hsat]
    constructor
    · rintro ⟨hps, hp⟩ a ha r hr
      simp only [latest, hid, Option.or_eq_some_iff, Option.ite_none_right_eq_some,
        Option.some.injEq] at hr
      rcases hr with hr | ⟨hnone, hba, rfl⟩
      · exact hps a ha r hr
      · obtain rfl := Attribute.index_injective hba
        exact hp hnone ha
    · intro hall
      refine ⟨fun a ha r hr => hall a ha r (by simp [latest, hr]), fun hnone hne => ?_⟩
      exact hall b hne _ (by simp [latest, hnone, hid])

theorem applyPkt_lastHold {now : UInt32} {ps : List Predicate} {fs : List IndexFilter}
    (h : Builds now ps fs) {pf : PacketFilter} (hpf : buildPacketFilter fs = .ok pf) {pkt : Memory}
    (hp : HasPorts pkt) (ts : UInt32) : pf.applyPkt pkt = true ↔ LastHold now pkt ts ps := by
  rw [lastHold_iff h pkt ts, PacketFilter.applyPkt_ranges pf pkt ts]
  have hr := (buildPacketFilter_eq_ok.mp hpf).2
  constructor
  · intro happ a ha r hl
    have := happ a ha fun _ => hp
    rwa [hr a, hl] at this
  · intro hl a ha _
    rw [hr a]
    cases hla : latest a fs with
    | none => exact TokRange.contains_all (Nat.lt_trans (a.value_lt pkt ts) (by decide))
    | some r => exact hl a ha r hla

/-- The packet filter is built from the disjunct's predicates. -/
def FilterOf (now : UInt32) (d : List Predicate) (pf : PacketFilter) : Prop :=
  ∃ fs, Builds now d fs ∧ buildPacketFilter fs = .ok pf

theorem buildFilters_filterOf {now : UInt32} {ds : List Expression} {pfs : List PacketFilter}
    (h : buildFilters now ds = .ok pfs) : List.Forall₂ (FilterOf now) (disjunctsOr ds) pfs := by
  induction ds generalizing pfs with
  | nil => cases h; exact .nil
  | cons d ds ih =>
    cases d with
    | conjunction cs =>
      obtain ⟨fs, hfs, h1⟩ := bind_eq_ok.mp h
      obtain ⟨pf, hpf, h2⟩ := bind_eq_ok.mp h1
      obtain ⟨qs, hqs, h3⟩ := bind_eq_ok.mp h2
      cases h3
      exact .cons ⟨fs, buildClause_builds hfs, hpf⟩ (ih hqs)
    | _ => simp [buildFilters] at h

/-- `build_filter_list` makes one packet filter a disjunct. -/
theorem buildFilterList_filterOf {e : Expression} {now : UInt32} {pfs : List PacketFilter}
    (h : buildFilterList e now = .ok pfs) : List.Forall₂ (FilterOf now) (disjuncts e) pfs := by
  cases e with
  | predicate p =>
    obtain ⟨f, hf, h1⟩ := bind_eq_ok.mp h
    obtain ⟨pf, hpf, h2⟩ := bind_eq_ok.mp h1
    cases h2
    exact .cons ⟨[f], .cons hf .nil, hpf⟩ .nil
  | conjunction cs =>
    obtain ⟨fs, hfs, h1⟩ := bind_eq_ok.mp h
    obtain ⟨pf, hpf, h2⟩ := bind_eq_ok.mp h1
    cases h2
    exact .cons ⟨fs, buildClause_builds hfs, hpf⟩ .nil
  | disjunction ds => exact buildFilters_filterOf h
  | negation e => cases h; exact .nil

theorem accepts_iff {now : UInt32} {ds : List (List Predicate)} {pfs : List PacketFilter}
    (h : List.Forall₂ (FilterOf now) ds pfs) {pkt : Memory} (hp : HasPorts pkt) (ts : UInt32) :
    (∃ pf ∈ pfs, pf.applyPkt pkt = true) ↔ ∃ d ∈ ds, LastHold now pkt ts d := by
  induction h with
  | nil => simp
  | cons hd _ ih =>
    obtain ⟨fs, hfs, hpf⟩ := hd
    simp [ih, applyPkt_lastHold hfs hpf hp ts]

/-- A complex character selects a packet as its expression says exactly if no
disjunct has the last predicate on every attribute satisfied without some
disjunct being satisfied altogether. -/
theorem character_selects_iff {e : Expression} {now : UInt32} {pfs : List PacketFilter}
    (h : buildFilterList e now = .ok pfs) {pkt : Memory} (hp : HasPorts pkt) (ts : UInt32) :
    ((∃ pf ∈ pfs, pf.applyPkt pkt = true) ↔ ∃ d ∈ disjuncts e, ∀ p ∈ d, Holds now pkt ts p) ↔
      ∀ d ∈ disjuncts e, LastHold now pkt ts d →
        ∃ d' ∈ disjuncts e, ∀ p ∈ d', Holds now pkt ts p := by
  rw [accepts_iff (buildFilterList_filterOf h) hp ts]
  constructor
  · intro hiff d hd hl
    exact hiff.mp ⟨d, hd, hl⟩
  · intro hcond
    exact ⟨fun ⟨d, hd, hl⟩ => hcond d hd hl, fun ⟨d, hd, hall⟩ => ⟨d, hd, lastHold_of_forall hall⟩⟩

def portIsOne : Predicate := ⟨lit "src_port", lit "==", lit "1"⟩
def anyPort : Predicate := ⟨lit "src_port", lit ">=", lit "0"⟩
def secondIsOne : Predicate := ⟨lit "timestamp", lit "==", lit "1"⟩

/-- On a packet from port 0 in second 0: a range that a later predicate on the
same attribute overwrites, and a predicate on the second. -/
theorem character_misselects :
    (∃ pfs, buildFilterList (.conjunction [.predicate portIsOne, .predicate anyPort]) 0 = .ok pfs ∧
      ¬ ((∃ pf ∈ pfs, pf.applyPkt tcpPkt = true) ↔
        ∃ d ∈ disjuncts (.conjunction [.predicate portIsOne, .predicate anyPort]),
          ∀ p ∈ d, Holds 0 tcpPkt 0 p)) ∧
    ∃ pfs, buildFilterList (.predicate secondIsOne) 0 = .ok pfs ∧
      ¬ ((∃ pf ∈ pfs, pf.applyPkt tcpPkt = true) ↔
        ∃ d ∈ disjuncts (.predicate secondIsOne), ∀ p ∈ d, Holds 0 tcpPkt 0 p) := by
  have hport : ¬ Holds 0 tcpPkt 0 portIsOne := by
    have h : buildIndexFilter portIsOne 0 = .ok ⟨srcportIdx, ⟨1, 1⟩⟩ := rfl
    rw [holds_iff h]
    rintro ⟨a, ha, hin⟩
    obtain rfl := Attribute.index_injective (a := .srcPort) ha
    exact absurd hin (by decide)
  have hsecond : ¬ Holds 0 tcpPkt 0 secondIsOne := by
    have h : buildIndexFilter secondIsOne 0 = .ok ⟨timestampIdx, ⟨1, 1⟩⟩ := rfl
    rw [holds_iff h]
    rintro ⟨a, ha, hin⟩
    obtain rfl := Attribute.index_injective (a := .timestamp) ha
    exact absurd hin (by decide)
  refine ⟨⟨_, rfl, fun h => ?_⟩, ⟨_, rfl, fun h => ?_⟩⟩
  · obtain ⟨d, hd, hall⟩ := h.mp ⟨_, List.mem_singleton_self _, by decide⟩
    obtain rfl := List.mem_singleton.mp hd
    exact hport (hall _ List.mem_cons_self)
  · obtain ⟨d, hd, hall⟩ := h.mp ⟨_, List.mem_singleton_self _, by decide⟩
    obtain rfl := List.mem_singleton.mp hd
    exact hsecond (hall _ List.mem_cons_self)

def portIsZero : Predicate := ⟨lit "src_port", lit "==", lit "0"⟩

/-- The predicate that is overwritten is true of every packet. -/
theorem character_selects_portIsZero :
    (∃ pf ∈ [(⟨.all, .all, ⟨0, 0⟩, .all, .all⟩ : PacketFilter)], pf.applyPkt tcpPkt = true) ↔
      ∃ d ∈ disjuncts (.conjunction [.predicate anyPort, .predicate portIsZero]),
        ∀ p ∈ d, Holds 0 tcpPkt 0 p := by
  have hfilter : buildFilterList (.conjunction [.predicate anyPort, .predicate portIsZero]) 0 =
      .ok [⟨.all, .all, ⟨0, 0⟩, .all, .all⟩] := rfl
  have hany : Holds 0 tcpPkt 0 anyPort := by
    have h : buildIndexFilter anyPort 0 = .ok ⟨srcportIdx, ⟨0, 65535⟩⟩ := rfl
    exact (holds_iff h).mpr ⟨.srcPort, rfl, by decide⟩
  refine (character_selects_iff hfilter (by decide) 0).mpr fun d hd hl => ?_
  obtain rfl := List.mem_singleton.mp hd
  refine ⟨_, List.mem_cons_self, fun p hp => ?_⟩
  rcases List.mem_cons.mp hp with rfl | hp
  · exact hany
  · obtain rfl := List.mem_singleton.mp hp
    exact hl.1.2 (fun q hq => absurd hq List.not_mem_nil) (by decide)

end Netplay.FilterMeaning
