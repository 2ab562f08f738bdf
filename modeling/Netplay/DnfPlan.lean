import Netplay.ParserText
import Netplay.RangeEnds

/-!
# Queries in disjunctive normal form

Predicates joined by `&&`, and the results by `||`. The parser does not wrap a
single predicate, so that a conjunct of one predicate among several is a child
that is not a conjunction: neither the planner nor the filter builder takes it.
The planner counts the ranges of a conjunction, and the count of a port below 0
does not come to its end.
-/

namespace Netplay.DnfPlan

open Text Lexer QueryParser Item Lexemes LexerItems NetplayUtils QueryPlanner FilterMeaning ParserText

/-- `build_index_filter` accepts the predicate. -/
def WellFormed (now : UInt32) (p : Predicate) : Prop := ∃ f, buildIndexFilter p now = .ok f

/-! ## Tokens and trees -/

def predicateTokens (p : Predicate) : List LexToken :=
  [operandToken p.attr, operatorToken p.op, operandToken p.value]

def clauseTokens (d : List Predicate) : List LexToken :=
  List.intercalate [andToken] (d.map predicateTokens)

def dnfTokens (ds : List (List Predicate)) : List LexToken :=
  List.intercalate [orToken] (ds.map clauseTokens)

def clauseSource (d : List Predicate) : Source := .all (d.map .predicate)

theorem clause_derives (d : List Predicate) (hne : d ≠ [])
    (hop : ∀ p ∈ d, p.op ∈ Expression.operators) :
    Derives .term (clauseTokens d) (clauseSource d) := by
  induction d with
  | nil => exact absurd rfl hne
  | cons p d ih =>
    have hp := Derives.predicate p.attr p.op p.value (hop p List.mem_cons_self)
    cases d with
    | nil => exact .factor hp
    | cons q d => exact .and hp (ih nofun fun r hr => hop r (List.mem_cons_of_mem _ hr))

theorem dnf_derives (ds : List (List Predicate)) (hne : ds ≠ []) (hds : ∀ d ∈ ds, d ≠ [])
    (hop : ∀ d ∈ ds, ∀ p ∈ d, p.op ∈ Expression.operators) :
    Derives .expression (dnfTokens ds) (.any (ds.map clauseSource)) := by
  induction ds with
  | nil => exact absurd rfl hne
  | cons d ds ih =>
    have hd := clause_derives d (hds d List.mem_cons_self) (hop d List.mem_cons_self)
    cases ds with
    | nil =>
      have hone : dnfTokens [d] = clauseTokens d := by simp [dnfTokens, List.intercalate]
      rw [hone]
      exact .term hd
    | cons d' ds =>
      exact .or hd (ih nofun (fun e he => hds e (List.mem_cons_of_mem _ he))
        fun e he => hop e (List.mem_cons_of_mem _ he))

theorem operators_of_wellFormed {now : UInt32} {p : Predicate} (h : WellFormed now p) :
    p.op ∈ Expression.operators := by
  obtain ⟨f, h⟩ := h
  by_contra hop
  simp only [Expression.operators, List.mem_cons, List.not_mem_nil, or_false, not_or] at hop
  obtain ⟨h1, h2, h3, h4, h5, h6, h7, h8⟩ := hop
  have hip : ∀ id, ipFilter id p.op p.value ≠ .ok f := by
    intro id
    simp [ipFilter, h1, h2, h7, h8]
  rw [buildIndexFilter_named] at h
  cases ha : named p.attr with
  | none => simp [ha] at h
  | some a =>
    simp only [ha] at h
    cases a with
    | srcIp => exact hip _ h
    | dstIp => exact hip _ h
    | srcPort | dstPort =>
      obtain ⟨_, -, h⟩ := bind_eq_ok.mp h
      simp [portRange, h1, h2, h3, h4, h5, h6, bind, Except.bind, throwParse] at h
    | timestamp =>
      obtain ⟨_, -, h⟩ := bind_eq_ok.mp h
      simp [timeRange, h1, h2, h3, h4, h5, h6, bind, Except.bind, throwParse] at h

theorem strtol_i (v : Bytes) : strtol (ch 'i' :: v) = none := by
  have hspace : (ch 'i' :: v).dropWhile iswspace = ch 'i' :: v := rfl
  have hdigit : (ch 'i' :: v).takeWhile isdigit = [] := rfl
  have hminus : ch 'i' ≠ ch '-' := by decide
  have hplus : ch 'i' ≠ ch '+' := by decide
  simp [strtol, hspace, hdigit, hminus, hplus]

/-- A value that is accepted is not empty and does not start with an `i`. -/
theorem value_head {now : UInt32} {p : Predicate} (h : WellFormed now p) :
    p.value ≠ [] ∧ p.value.head? ≠ some (ch 'i') := by
  obtain ⟨f, h⟩ := h
  constructor
  · intro hv
    refine buildIndexFilter_unread (fun n => ?_) ?_ now f h
    · rw [hv, List.take_nil]
      rfl
    · rw [hv]
      nofun
  · intro hv
    obtain ⟨v, hv⟩ := List.head?_eq_some_iff.mp hv
    refine buildIndexFilter_unread (fun n => ?_) ?_ now f h
    · rw [hv]
      cases n with
      | zero => rfl
      | succ n => exact strtol_i _
    · rw [hv, find, if_neg (by simp [lit, ch])]
      cases find (lit "now") v <;> simp

/-! ## The text is read as it is written -/

variable {now : UInt32} {ds : List (List Predicate)}

theorem clauseTokens_last (d : List Predicate) (hne : d ≠ []) :
    ∃ us, ∃ p ∈ d, clauseTokens d = us ++ [operandToken p.value] := by
  induction d with
  | nil => exact absurd rfl hne
  | cons p d ih =>
    cases d with
    | nil => exact ⟨[operandToken p.attr, operatorToken p.op], p, List.mem_cons_self, rfl⟩
    | cons q d =>
      obtain ⟨us, r, hr, heq⟩ := ih nofun
      refine ⟨predicateTokens p ++ andToken :: us, r, List.mem_cons_of_mem _ hr, ?_⟩
      change predicateTokens p ++ andToken :: clauseTokens (q :: d) = _
      rw [heq]
      simp

theorem dnfTokens_last (hne : ds ≠ []) (hds : ∀ d ∈ ds, d ≠ []) :
    ∃ us, ∃ d ∈ ds, ∃ p ∈ d, dnfTokens ds = us ++ [operandToken p.value] := by
  induction ds with
  | nil => exact absurd rfl hne
  | cons d ds ih =>
    cases ds with
    | nil =>
      obtain ⟨us, p, hp, heq⟩ := clauseTokens_last d (hds d List.mem_cons_self)
      refine ⟨us, d, List.mem_cons_self, p, hp, ?_⟩
      rw [← heq]
      simp [dnfTokens, List.intercalate]
    | cons d' ds =>
      obtain ⟨us, e, he, p, hp, heq⟩ := ih nofun fun e he => hds e (List.mem_cons_of_mem _ he)
      refine ⟨clauseTokens d ++ orToken :: us, e, List.mem_cons_of_mem _ he, p, hp, ?_⟩
      change clauseTokens d ++ orToken :: dnfTokens (d' :: ds) = _
      rw [heq]
      simp

theorem mem_clauseTokens {d : List Predicate} {t : LexToken} (h : t ∈ clauseTokens d) :
    t = andToken ∨ ∃ p ∈ d, t ∈ predicateTokens p := by
  induction d with
  | nil => cases h
  | cons p d ih =>
    cases d with
    | nil =>
      rw [clauseTokens, List.map_cons, List.map_nil, List.intercalate_singleton] at h
      exact .inr ⟨p, List.mem_cons_self, h⟩
    | cons q d =>
      change t ∈ predicateTokens p ++ andToken :: clauseTokens (q :: d) at h
      rcases List.mem_append.mp h with h | h
      · exact .inr ⟨p, List.mem_cons_self, h⟩
      · rcases List.mem_cons.mp h with h | h
        · exact .inl h
        · exact (ih h).imp_right fun ⟨r, hr, ht⟩ => ⟨r, List.mem_cons_of_mem _ hr, ht⟩

theorem mem_dnfTokens {t : LexToken} (h : t ∈ dnfTokens ds) :
    t = orToken ∨ t = andToken ∨ ∃ d ∈ ds, ∃ p ∈ d, t ∈ predicateTokens p := by
  induction ds with
  | nil => cases h
  | cons d ds ih =>
    have hclause : t ∈ clauseTokens d →
        t = orToken ∨ t = andToken ∨ ∃ e ∈ d :: ds, ∃ p ∈ e, t ∈ predicateTokens p :=
      fun h => .inr ((mem_clauseTokens h).imp_right fun hp => ⟨d, List.mem_cons_self, hp⟩)
    cases ds with
    | nil =>
      rw [dnfTokens, List.map_cons, List.map_nil, List.intercalate_singleton] at h
      exact hclause h
    | cons d' ds =>
      change t ∈ clauseTokens d ++ orToken :: dnfTokens (d' :: ds) at h
      rcases List.mem_append.mp h with h | h
      · exact hclause h
      · rcases List.mem_cons.mp h with h | h
        · exact .inl h
        · exact (ih h).imp_right fun h => h.imp_right fun ⟨e, he, hp⟩ =>
            ⟨e, List.mem_cons_of_mem _ he, hp⟩

/-- Neither the attributes nor the values are the word `in`. -/
theorem dnf_evident {s : Bytes} (hl : Lexed s (dnfTokens ds))
    (hwf : ∀ d ∈ ds, ∀ p ∈ d, WellFormed now p) : Spelled Evident s (dnfTokens ds) := by
  refine evident_of_lexed hl fun hmem => ?_
  rcases mem_dnfTokens hmem with h | h | ⟨d, hd, p, hp, h⟩
  · cases h
  · cases h
  · have hwp := hwf d hd p hp
    simp only [predicateTokens, List.mem_cons, List.not_mem_nil, or_false] at h
    rcases h with h | h | h
    · obtain ⟨f, hf⟩ := hwp
      obtain ⟨a, ha, -⟩ := buildIndexFilter_index hf
      have hattr : lit "in" = p.attr := congrArg LexToken.value h
      have hnone : named (lit "in") = none := by decide
      rw [← hattr, hnone] at ha
      cases ha
    · cases h
    · have hvalue : lit "in" = p.value := congrArg LexToken.value h
      exact (value_head hwp).2 (by rw [← hvalue]; rfl)

/-- The last lexeme is a value, which the lexer does not cut. -/
theorem dnf_not_cut {s : Bytes} (hl : Lexed s (dnfTokens ds)) (hne : ds ≠ [])
    (hds : ∀ d ∈ ds, d ≠ []) (hwf : ∀ d ∈ ds, ∀ p ∈ d, WellFormed now p) : cut s = false := by
  obtain ⟨us, d, hd, p, hp, heq⟩ := dnfTokens_last hne hds
  obtain ⟨-, hhead⟩ := value_head (hwf d hd p hp)
  have hends := derives_phase (dnf_derives ds hne hds fun d hd p hp =>
    operators_of_wellFormed (hwf d hd p hp))
  by_contra hc
  have hi : operandToken p.value ≠ operandToken [ch 'i'] := by
    intro h
    have hv : p.value = [ch 'i'] := congrArg LexToken.value h
    exact hhead (by rw [hv]; rfl)
  rcases taken_cut (spelled_taken (dnf_evident hl hwf) hends) (by simpa using hc) with
    ⟨vs, t, h, ht⟩ | ⟨vs, h⟩ | ⟨vs, h, -⟩
  · rw [heq] at h
    obtain rfl := List.singleton_inj.mp (List.append_inj_right' h rfl)
    rcases ht with ht | ht
    · exact absurd (congrArg LexToken.id ht) (by simp [operandToken, notToken])
    · exact absurd ht (by simp [operandToken])
  · rw [heq, List.append_cons vs] at h
    exact hi (List.singleton_inj.mp (List.append_inj_right' h rfl))
  · rw [heq] at h
    exact hi (List.singleton_inj.mp (List.append_inj_right' h rfl))

def predicateText (p : Predicate) : Bytes :=
  p.attr ++ (lit " " ++ (p.op ++ (lit " " ++ p.value)))

def clauseText (d : List Predicate) : Bytes := List.intercalate (lit "&&") (d.map predicateText)

def dnfText (ds : List (List Predicate)) : Bytes :=
  List.intercalate (lit "||") (ds.map clauseText)

theorem attr_lexeme {p : Predicate} (h : WellFormed now p) (r : Bytes) :
    Lexeme (operandToken p.attr) (lit " " ++ r) := by
  obtain ⟨f, h⟩ := h
  obtain ⟨a, ha, -⟩ := buildIndexFilter_index h
  rw [named_eq_some ha]
  have hsp : ∀ d ∈ (lit " " ++ r).head?, opvalid d = false := fun d hd => by
    cases hd
    decide
  cases a <;> exact .operand _ _ _ (List.all_eq_true.mp (by decide)) hsp

theorem op_lexeme {p : Predicate} (h : WellFormed now p) (r : Bytes) :
    Lexeme (operatorToken p.op) (lit " " ++ r) := by
  have hop := operators_of_wellFormed h
  have hne : (lit " " ++ r).head? ≠ some (ch '=') := by simp [lit, ch]
  simp only [Expression.operators, List.mem_cons, List.not_mem_nil, or_false] at hop
  rcases hop with hop | hop | hop | hop | hop | hop | hop | hop <;> rw [hop]
  · exact .equality (ch '=') _ (by decide)
  · exact .equality (ch '!') _ (by decide)
  · exact .strict (ch '<') _ (by decide) hne
  · exact .equality (ch '<') _ (by decide)
  · exact .strict (ch '>') _ (by decide) hne
  · exact .equality (ch '>') _ (by decide)
  · exact .member _ (spaceAhead_ends rfl)
  · exact .notMember _ (spaceAhead_ends rfl)

theorem value_lexeme {p : Predicate} (h : WellFormed now p)
    (hword : ∀ c ∈ p.value, opvalid c = true) {r : Bytes} (hr : ∀ c ∈ r.head?, opvalid c = false) :
    Lexeme (operandToken p.value) r := by
  obtain ⟨c, v, hv⟩ := List.exists_cons_of_ne_nil (value_head h).1
  rw [hv] at hword ⊢
  exact .operand c v r hword hr

/-- The lexemes of a predicate in front of what is no part of its value. -/
theorem predicate_lexed {p : Predicate} (h : WellFormed now p)
    (hword : ∀ c ∈ p.value, opvalid c = true) {r : Bytes} {ts : List LexToken}
    (hr : ∀ c ∈ r.head?, opvalid c = false) (hl : Lexed r ts) :
    Lexed (predicateText p ++ r) (predicateTokens p ++ ts) := by
  have hsp : ∀ c ∈ lit " ", iswspace c = true := List.all_eq_true.mp (by decide)
  have hvalue := Spelled.lexeme hsp (value_lexeme h hword hr) hl
  have hop := Spelled.lexeme hsp (op_lexeme h _) hvalue
  have hattr := Spelled.lexeme (List.forall_mem_nil _) (attr_lexeme h _) hop
  simpa [predicateText, predicateTokens, operandToken, operatorToken] using hattr

theorem clause_lexed {d : List Predicate} (hne : d ≠ []) (hwf : ∀ p ∈ d, WellFormed now p)
    (hword : ∀ p ∈ d, ∀ c ∈ p.value, opvalid c = true) {r : Bytes} {ts : List LexToken}
    (hr : ∀ c ∈ r.head?, opvalid c = false) (hl : Lexed r ts) :
    Lexed (clauseText d ++ r) (clauseTokens d ++ ts) := by
  induction d with
  | nil => exact absurd rfl hne
  | cons p d ih =>
    have hp := @predicate_lexed now p (hwf p List.mem_cons_self) (hword p List.mem_cons_self)
    cases d with
    | nil => simpa [clauseText, clauseTokens, List.intercalate] using hp hr hl
    | cons q d =>
      have hrest := ih nofun (fun p hp => hwf p (List.mem_cons_of_mem _ hp))
        fun p hp => hword p (List.mem_cons_of_mem _ hp)
      have hand := Spelled.lexeme (List.forall_mem_nil _) (.and _) hrest
      have hall := hp (fun c hc => by cases hc; decide) hand
      have htext : clauseText (p :: q :: d) = predicateText p ++ (lit "&&" ++ clauseText (q :: d)) := rfl
      have htokens : clauseTokens (p :: q :: d) =
          predicateTokens p ++ ([andToken] ++ clauseTokens (q :: d)) := rfl
      rw [htext, htokens]
      simpa [andToken] using hall

/-- The joined predicates have the lexemes of the query. -/
theorem dnf_lexed (hne : ds ≠ []) (hds : ∀ d ∈ ds, d ≠ [])
    (hwf : ∀ d ∈ ds, ∀ p ∈ d, WellFormed now p)
    (hword : ∀ d ∈ ds, ∀ p ∈ d, ∀ c ∈ p.value, opvalid c = true) :
    Lexed (dnfText ds) (dnfTokens ds) := by
  induction ds with
  | nil => exact absurd rfl hne
  | cons d ds ih =>
    have hd := @clause_lexed now d (hds d List.mem_cons_self) (hwf d List.mem_cons_self)
      (hword d List.mem_cons_self)
    cases ds with
    | nil =>
      have hall := hd (r := []) (by simp) (.done (List.forall_mem_nil _))
      simpa [dnfText, dnfTokens, List.intercalate] using hall
    | cons d' ds =>
      have hrest := ih nofun (fun d hd => hds d (List.mem_cons_of_mem _ hd))
        (fun d hd => hwf d (List.mem_cons_of_mem _ hd)) fun d hd => hword d (List.mem_cons_of_mem _ hd)
      have hor := Spelled.lexeme (List.forall_mem_nil _) (.or _) hrest
      have hall := hd (fun c hc => by cases hc; decide) hor
      have htext : dnfText (d :: d' :: ds) = clauseText d ++ (lit "||" ++ dnfText (d' :: ds)) := rfl
      have htokens : dnfTokens (d :: d' :: ds) =
          clauseTokens d ++ ([orToken] ++ dnfTokens (d' :: ds)) := rfl
      rw [htext, htokens]
      simpa [orToken] using hall

/-! ## Plans and filter lists -/

variable {ω : Type} [DecidableEq ω] {numFilters : Nat} {filters : Nat → List PacketFilter}
  {counts : Counts}

/-- The plan and the filter list come back. -/
def Accepted (counts : Counts) (now : UInt32) (e : Expression) : Prop :=
  (∃ q, plan counts e now = .ok q) ∧ ∃ pfs, buildFilterList e now = .ok pfs

end Netplay.DnfPlan
