import Netplay.TokenItems

/-!
# The parser accepts exactly its grammar on items

Completeness runs the parser along a derivation; soundness reads a derivation
off a successful run; and a run with fuel for its list never runs out.
-/

namespace Netplay.ParserItems

open Text Lexer QueryParser Item Source

/-- What a derivation makes the parser do, level by level. -/
def Parses : Level → List Item → Source → Prop
  | .factor, is, f => ∀ n rest, 3 * is.length + 1 ≤ n →
      factor source n (is ++ rest) = .ok (f.tree, rest)
  | .term, is, t => ∃ fs, t = .all fs ∧ fs ≠ [] ∧ is ≠ [] ∧
      ∀ n rest, 3 * is.length + 2 ≤ n → Closes .AND rest →
        term source n (is ++ rest) = .ok (t.tree, settle rest) ∧
        termLoop source (n + 1) (keep andToken :: is ++ rest) = .ok (trees fs, settle rest)
  | .expression, is, e => ∃ ts, e = .any ts ∧ ts ≠ [] ∧ is ≠ [] ∧
      ∀ n rest, 3 * is.length + 3 ≤ n → Closes .AND rest → Closes .OR (settle rest) →
        exp source n (is ++ rest) = .ok (e.tree, settle (settle rest)) ∧
        expLoop source (n + 1) (keep orToken :: is ++ rest) =
          .ok (trees ts, settle (settle rest))

theorem closes_and_keep {t : LexToken} (r : List Item) (h : t.id ≠ .AND) :
    Closes .AND (keep t :: r) := closes_token h

theorem closes_or_keep {t : LexToken} (r : List Item) (h : t.id ≠ .OR) :
    Closes .OR (keep t :: r) := closes_token h

theorem tree_all_cons {f : Source} {fs : List Source} (h : fs ≠ []) :
    (Source.all (f :: fs)).tree = .conjunction (f.tree :: trees fs) := by
  match fs, h with
  | _ :: _, _ => rfl

theorem tree_any_cons {t : Source} {ts : List Source} (h : ts ≠ []) :
    (Source.any (t :: ts)).tree = .disjunction (t.tree :: trees ts) := by
  match ts, h with
  | _ :: _, _ => rfl

/-- The dropped items before a closing bracket are gone after two lookaheads. -/
theorem settle_two {us rest : List Item} (hu : ∀ u ∈ us, Dropped u) (hlen : us.length ≤ 2)
    (hand : Closes .AND rest) (hor : Closes .OR rest) (hrest : settle rest = rest) :
    Closes .AND (us ++ rest) ∧ Closes .OR (settle (us ++ rest)) ∧
      settle (settle (us ++ rest)) = rest := by
  match us, hu, hlen with
  | [], _, _ => simpa [hrest] using ⟨hand, hor⟩
  | [u], hu, _ =>
    have h := hu u (by simp)
    simpa [settle_append_dropped h, hrest] using ⟨(closes_dropped h rest).1, hor⟩
  | [u, w], hu, _ =>
    have h := hu u (by simp)
    have h' := hu w (by simp)
    simpa [settle_append_dropped h, settle_append_dropped h'] using
      ⟨(closes_dropped h _).1, (closes_dropped h' _).2⟩

/-- The dropped item before an `||` is gone after one lookahead. -/
theorem settle_one {us : List Item} (hu : ∀ u ∈ us, Dropped u) (hlen : us.length ≤ 1)
    (rest : List Item) :
    Closes .AND (us ++ keep orToken :: rest) ∧
      settle (us ++ keep orToken :: rest) = keep orToken :: rest := by
  match us, hu, hlen with
  | [], _, _ => exact ⟨closes_and_keep rest (by decide), rfl⟩
  | [u], hu, _ =>
    have h := hu u (by simp)
    simpa [settle_append_dropped h] using (closes_dropped h _).1

/-! ## Completeness, one lemma for each rule of the grammar -/

theorem parses_not {is : List Item} {f : Source} (k : Bool) (hs : f.Plain)
    (hf : Parses .factor is f) : Parses .factor (.token notToken k :: is) (.not f) := by
  intro n rest hn
  simp only [List.length_cons] at hn
  obtain ⟨n, rfl⟩ := Nat.exists_eq_succ_of_ne_zero (by omega : n ≠ 0)
  change (factor source n (is ++ rest) >>= fun x => x.1.negate >>= fun e => pure (e, x.2)) = _
  rw [hf n rest (by omega)]
  change ((tree f).negate >>= fun e => pure (e, rest)) = _
  rw [Expression.negate_plain _ (tree_plain f hs)]
  rfl

theorem parses_group {is us : List Item} {e : Source} (k : Bool) (hu : ∀ u ∈ us, Dropped u)
    (hlen : us.length ≤ 2) (he : Parses .expression is e) :
    Parses .factor (.token leftToken k :: is ++ us ++ [keep rightToken]) e := by
  intro n rest hn
  simp only [List.cons_append, List.length_cons, List.length_append, List.length_nil] at hn
  obtain ⟨n, rfl⟩ := Nat.exists_eq_succ_of_ne_zero (by omega : n ≠ 0)
  obtain ⟨ts, rfl, -, -, hp⟩ := he
  obtain ⟨hand, hor, hset⟩ := @settle_two us (keep rightToken :: rest) hu hlen
    (closes_and_keep rest (by decide)) (closes_or_keep rest (by decide)) rfl
  have he := (hp n (us ++ keep rightToken :: rest) (by omega) hand hor).1
  rw [hset] at he
  simp only [List.cons_append, List.append_assoc, List.nil_append]
  change (exp source n (is ++ (us ++ keep rightToken :: rest)) >>= _) = _
  rw [he]
  rfl

theorem parses_factor {is : List Item} {f : Source} (hne : is ≠ []) (hf : Parses .factor is f) :
    Parses .term is (.all [f]) := by
  refine ⟨[f], rfl, by simp, hne, ?_⟩
  intro n rest hn hc
  obtain ⟨t, hpeek, hid⟩ := closes_peek hc
  obtain ⟨n, rfl⟩ := Nat.exists_eq_succ_of_ne_zero (by omega : n ≠ 0)
  constructor
  · rw [term, hf n rest (by omega)]
    change (peek rest >>= _) = _
    rw [hpeek]
    simp [bind, Except.bind, hid, pure, Except.pure, tree, trees]
  · rw [termLoop]
    change (factor source (n + 1) (is ++ rest) >>= _) = _
    rw [hf (n + 1) rest (by omega)]
    change (termLoop source (n + 1) rest >>= _) = _
    rw [termLoop]
    change ((peek rest >>= _) >>= _) = _
    rw [hpeek]
    simp [bind, Except.bind, hid, pure, Except.pure, trees]

theorem parses_and {is js : List Item} {f : Source} {fs : List Source} (hf : Parses .factor is f)
    (h : Parses .term js (.all fs)) : Parses .term (is ++ keep andToken :: js) (.all (f :: fs)) := by
  obtain ⟨fs', hfs, hne, -, hp⟩ := h
  cases hfs
  refine ⟨f :: fs, rfl, by simp, by simp, ?_⟩
  intro n rest hn hc
  simp only [List.length_append, List.length_cons] at hn
  obtain ⟨n, rfl⟩ := Nat.exists_eq_succ_of_ne_zero (by omega : n ≠ 0)
  obtain ⟨m, rfl⟩ := Nat.exists_eq_succ_of_ne_zero (by omega : n ≠ 0)
  have hrest := (hp m rest (by omega) hc).2
  have hrest' := (hp (m + 1) rest (by omega) hc).2
  simp only [List.cons_append] at hrest hrest'
  simp only [List.append_assoc, List.cons_append]
  constructor
  · rw [term, hf (m + 1) _ (by omega), tree_all_cons hne]
    change (termLoop source (m + 1) (keep andToken :: (js ++ rest)) >>= _) = _
    rw [hrest]
    rfl
  · rw [termLoop]
    change (factor source (m + 2) (is ++ keep andToken :: (js ++ rest)) >>= _) = _
    rw [hf (m + 2) _ (by omega)]
    change (termLoop source (m + 2) (keep andToken :: (js ++ rest)) >>= _) = _
    rw [hrest']
    rfl

theorem parses_term {is : List Item} {t : Source} (h : Parses .term is t) :
    Parses .expression is (.any [t]) := by
  obtain ⟨fs, rfl, -, hne, hp⟩ := h
  refine ⟨[.all fs], rfl, by simp, hne, ?_⟩
  intro n rest hn hand hor
  obtain ⟨t, hpeek, hid⟩ := closes_peek hor
  obtain ⟨n, rfl⟩ := Nat.exists_eq_succ_of_ne_zero (by omega : n ≠ 0)
  constructor
  · rw [exp, (hp n rest (by omega) hand).1]
    change (peek (settle rest) >>= _) = _
    rw [hpeek]
    simp [bind, Except.bind, hid, pure, Except.pure, tree, trees]
  · rw [expLoop]
    change (term source (n + 1) (is ++ rest) >>= _) = _
    rw [(hp (n + 1) rest (by omega) hand).1]
    change (expLoop source (n + 1) (settle rest) >>= _) = _
    rw [expLoop]
    change ((peek (settle rest) >>= _) >>= _) = _
    rw [hpeek]
    simp [bind, Except.bind, hid, pure, Except.pure, trees]

theorem parses_or {is us js : List Item} {t : Source} {ts : List Source} (ht : Parses .term is t)
    (hu : ∀ u ∈ us, Dropped u) (hlen : us.length ≤ 1) (h : Parses .expression js (.any ts)) :
    Parses .expression (is ++ us ++ keep orToken :: js) (.any (t :: ts)) := by
  obtain ⟨fs, rfl, -, -, hpt⟩ := ht
  obtain ⟨ts', hts, hne, -, hp⟩ := h
  cases hts
  refine ⟨.all fs :: ts, rfl, by simp, by simp, ?_⟩
  intro n rest hn hand hor
  simp only [List.length_append, List.length_cons] at hn
  obtain ⟨n, rfl⟩ := Nat.exists_eq_succ_of_ne_zero (by omega : n ≠ 0)
  obtain ⟨m, rfl⟩ := Nat.exists_eq_succ_of_ne_zero (by omega : n ≠ 0)
  obtain ⟨hclose, hset⟩ := settle_one hu hlen (js ++ rest)
  have hrest := (hp m rest (by omega) hand hor).2
  have hrest' := (hp (m + 1) rest (by omega) hand hor).2
  simp only [List.cons_append] at hrest hrest'
  simp only [List.append_assoc, List.cons_append]
  constructor
  · rw [exp, (hpt (m + 1) _ (by omega) hclose).1, hset, tree_any_cons hne]
    change (expLoop source (m + 1) (keep orToken :: (js ++ rest)) >>= _) = _
    rw [hrest]
    rfl
  · rw [expLoop]
    change (term source (m + 2) (is ++ (us ++ keep orToken :: (js ++ rest))) >>= _) = _
    rw [(hpt (m + 2) _ (by omega) hclose).1, hset]
    change (expLoop source (m + 2) (keep orToken :: (js ++ rest)) >>= _) = _
    rw [hrest']
    rfl

theorem Read.parses {l : Level} {is : List Item} {s : Source} (h : Read l is s)
    (hs : s.Plain) : Parses l is s := by
  induction h with
  | predicate a op v ka ko kv h =>
    intro n rest hn
    obtain ⟨n, rfl⟩ := Nat.exists_eq_succ_of_ne_zero (by omega : n ≠ 0)
    rfl
  | not k h ih => exact parses_not k hs (ih hs)
  | group k h hu hlen ih => exact parses_group k hu hlen (ih hs)
  | factor h ih => exact parses_factor (by cases h <;> simp) (ih hs.1)
  | and hf h ihf ih => exact parses_and (ihf hs.1) (ih hs.2)
  | term h ih => exact parses_term (ih hs.1)
  | or ht hu hlen h iht ih => exact parses_or (iht hs.1) hu hlen (ih hs.2)

/-! ## Soundness -/

def FactorSound (n : Nat) : Prop := ∀ is e r, (∀ i ∈ is, Proper i) →
  factor source n is = .ok (e, r) → ∃ pre f, is = pre ++ r ∧ Read .factor pre f ∧ e = f.tree

def TermSound (n : Nat) : Prop := ∀ is e r, (∀ i ∈ is, Proper i) →
  term source n is = .ok (e, r) → ∃ pre fs rest, is = pre ++ rest ∧
    Read .term pre (.all fs) ∧ e = (Source.all fs).tree ∧ Closes .AND rest ∧ r = settle rest

def TermLoopSound (n : Nat) : Prop := ∀ is es r, (∀ i ∈ is, Proper i) →
  termLoop source n is = .ok (es, r) → (Closes .AND is ∧ es = [] ∧ r = settle is) ∨
    ∃ pre fs rest, is = keep andToken :: pre ++ rest ∧ fs ≠ [] ∧ Read .term pre (.all fs) ∧
      es = trees fs ∧ Closes .AND rest ∧ r = settle rest

def ExpSound (n : Nat) : Prop := ∀ is e r, (∀ i ∈ is, Proper i) →
  exp source n is = .ok (e, r) → ∃ pre ts rest, is = pre ++ rest ∧
    Read .expression pre (.any ts) ∧ e = (Source.any ts).tree ∧ Closes .AND rest ∧
    Closes .OR (settle rest) ∧ r = settle (settle rest)

def ExpLoopSound (n : Nat) : Prop := ∀ is es r, (∀ i ∈ is, Proper i) →
  expLoop source n is = .ok (es, r) → (Closes .OR is ∧ es = [] ∧ r = settle is) ∨
    ∃ pre ts rest, is = keep orToken :: pre ++ rest ∧ ts ≠ [] ∧ Read .expression pre (.any ts) ∧
      es = trees ts ∧ Closes .AND rest ∧ Closes .OR (settle rest) ∧ r = settle (settle rest)

/-- A successful `next` that is not at the end takes the first item. -/
theorem next_eq_ok {is r : List Item} {t : LexToken} (h : next is = .ok (t, r))
    (ht : t.id ≠ .END) : ∃ k, is = .token t k :: r := by
  match is, h with
  | [], h => cases h; exact absurd rfl ht
  | .token t' k :: r', h => cases h; exact ⟨k, rfl⟩
  | .bad _ :: _, h => cases h

theorem settle_suffix (is : List Item) :
    settle is = is ∨ ∃ t, is = .token t false :: settle is := by
  match is with
  | [] => exact .inl rfl
  | .token t true :: r => exact .inl rfl
  | .token t false :: r => exact .inr ⟨t, rfl⟩
  | .bad msg :: r => exact .inl rfl

/-- A lookahead that finds `&&` finds the kept token and moves nothing. -/
theorem peek_and {is r : List Item} {t : LexToken} (hp : ∀ i ∈ is, Proper i)
    (h : peek is = .ok (t, r)) (ht : t.id = .AND) : ∃ r', is = keep andToken :: r' ∧ r = is := by
  obtain ⟨⟨r', hn⟩, rfl⟩ := peek_eq_ok.mp h
  obtain ⟨k, rfl⟩ := next_eq_ok hn (by simp [ht])
  have := hp (.token t k) (by simp)
  simp only [Proper, ht] at this
  obtain ⟨rfl, rfl⟩ := this
  exact ⟨r', rfl, rfl⟩

theorem peek_or {is r : List Item} {t : LexToken} (hp : ∀ i ∈ is, Proper i)
    (h : peek is = .ok (t, r)) (ht : t.id = .OR) : ∃ r', is = keep orToken :: r' ∧ r = is := by
  obtain ⟨⟨r', hn⟩, rfl⟩ := peek_eq_ok.mp h
  obtain ⟨k, rfl⟩ := next_eq_ok hn (by simp [ht])
  have := hp (.token t k) (by simp)
  simp only [Proper, ht] at this
  obtain ⟨rfl, rfl⟩ := this
  exact ⟨r', rfl, rfl⟩

theorem peek_closes {is r : List Item} {t : LexToken} {id : TokenId} (h : peek is = .ok (t, r))
    (ht : t.id ≠ id) : Closes id is ∧ r = settle is := by
  obtain ⟨⟨r', hn⟩, rfl⟩ := peek_eq_ok.mp h
  exact ⟨⟨t, r', hn, ht⟩, rfl⟩

theorem term_sound {n : Nat} (hf : FactorSound n) (hl : TermLoopSound n) :
    TermSound (n + 1) := by
  intro is e r hp h
  rw [term] at h
  obtain ⟨⟨f, s1⟩, h1, k1⟩ := bind_eq_ok.mp h
  obtain ⟨⟨tok, s2⟩, h2, k2⟩ := bind_eq_ok.mp k1
  obtain ⟨pre, src, rfl, hread, rfl⟩ := hf is f s1 hp h1
  have hp1 : ∀ i ∈ s1, Proper i := fun i hi => hp i (by simp [hi])
  by_cases hid : tok.id = .AND
  · dsimp only at k2
    rw [if_neg (by simpa using hid)] at k2
    obtain ⟨⟨fs, s3⟩, h3, k3⟩ := bind_eq_ok.mp k2
    cases k3
    obtain ⟨r', hr', rfl⟩ := peek_and hp1 h2 hid
    rcases hl _ fs _ hp1 h3 with ⟨hc, -, -⟩ | ⟨pre', ss, rest, hs, hne, hread', rfl, hc, rfl⟩
    · obtain ⟨t, r'', hn, hid'⟩ := hc
      rw [hr'] at hn
      cases hn
      exact absurd rfl hid'
    · refine ⟨pre ++ keep andToken :: pre', src :: ss, rest, by simp [hs], .and hread hread', ?_,
        hc, rfl⟩
      exact (tree_all_cons hne).symm
  · dsimp only at k2
    rw [if_pos hid] at k2
    cases k2
    obtain ⟨hc, rfl⟩ := peek_closes h2 hid
    exact ⟨pre, [src], s1, rfl, .factor hread, rfl, hc, rfl⟩

theorem termLoop_sound {n : Nat} (hf : FactorSound n) (hl : TermLoopSound n) :
    TermLoopSound (n + 1) := by
  intro is es r hp h
  rw [termLoop] at h
  obtain ⟨⟨tok, s1⟩, h1, k1⟩ := bind_eq_ok.mp h
  by_cases hid : tok.id = .AND
  · dsimp only at k1
    rw [if_pos hid] at k1
    obtain ⟨r', rfl, rfl⟩ := peek_and hp h1 hid
    obtain ⟨⟨_, _⟩, hnext, k2⟩ := bind_eq_ok.mp k1
    cases hnext
    obtain ⟨⟨f, s2⟩, h2, k3⟩ := bind_eq_ok.mp k2
    obtain ⟨⟨fs, s3⟩, h3, k4⟩ := bind_eq_ok.mp k3
    cases k4
    have hp' : ∀ i ∈ r', Proper i := fun i hi => hp i (by simp [hi])
    obtain ⟨pre, src, rfl, hread, rfl⟩ := hf r' f s2 hp' h2
    have hp2 : ∀ i ∈ s2, Proper i := fun i hi => hp' i (by simp [hi])
    right
    rcases hl s2 fs _ hp2 h3 with ⟨hc, rfl, rfl⟩ | ⟨pre', ss, rest, rfl, hne, hread', rfl, hc, rfl⟩
    · exact ⟨pre, [src], s2, rfl, by simp, .factor hread, rfl, hc, rfl⟩
    · exact ⟨pre ++ keep andToken :: pre', src :: ss, rest, by simp, by simp, .and hread hread', rfl,
        hc, rfl⟩
  · dsimp only at k1
    rw [if_neg hid] at k1
    cases k1
    obtain ⟨hc, rfl⟩ := peek_closes h1 hid
    exact .inl ⟨hc, rfl, rfl⟩

/-- The items a lookahead dropped before `s` are an optional first item. -/
theorem settle_split {rest s : List Item} (hp : ∀ i ∈ rest, Proper i) (hc : Closes .AND rest)
    (h : settle rest = s) :
    ∃ us, rest = us ++ s ∧ us.length ≤ 1 ∧ ∀ u ∈ us, Dropped u := by
  rcases settle_suffix rest with he | ⟨t, he⟩
  · exact ⟨[], by simpa [he] using h, by simp, by simp⟩
  · refine ⟨[.token t false], by rw [he, h]; rfl, by simp, ?_⟩
    intro u hu
    obtain rfl := List.mem_singleton.mp hu
    refine ⟨rfl, ?_, ?_⟩
    · obtain ⟨t', r, hn, hid⟩ := hc
      rw [he] at hn
      cases hn
      exact hid
    · intro hor
      have := hp (.token t false) (by rw [he]; simp)
      simp [Proper, hor] at this

theorem exp_sound {n : Nat} (ht : TermSound n) (hl : ExpLoopSound n) : ExpSound (n + 1) := by
  intro is e r hp h
  rw [exp] at h
  obtain ⟨⟨t, s1⟩, h1, k1⟩ := bind_eq_ok.mp h
  obtain ⟨⟨tok, s2⟩, h2, k2⟩ := bind_eq_ok.mp k1
  obtain ⟨pre, fs, rest, rfl, hread, rfl, hc, rfl⟩ := ht is t s1 hp h1
  have hp1 : ∀ i ∈ rest, Proper i := fun i hi => hp i (by simp [hi])
  obtain ⟨us, hrest, hlen, hu⟩ := settle_split hp1 hc rfl
  have hp2 : ∀ i ∈ settle rest, Proper i := by
    intro i hi
    refine hp1 i ?_
    rw [hrest]
    simp [hi]
  by_cases hid : tok.id = .OR
  · dsimp only at k2
    rw [if_neg (by simpa using hid)] at k2
    obtain ⟨⟨ts, s3⟩, h3, k3⟩ := bind_eq_ok.mp k2
    cases k3
    obtain ⟨r', hr', rfl⟩ := peek_or hp2 h2 hid
    rcases hl _ ts _ hp2 h3 with
      ⟨hc', -, -⟩ | ⟨pre', ss, rest', hs, hne, hread', rfl, hand, hor, rfl⟩
    · obtain ⟨t, r'', hn, hid'⟩ := hc'
      rw [hr'] at hn
      cases hn
      exact absurd rfl hid'
    · refine ⟨pre ++ us ++ keep orToken :: pre', .all fs :: ss, rest', ?_,
        .or hread hu hlen hread', (tree_any_cons hne).symm, hand, hor, rfl⟩
      rw [hrest, hs]
      simp
  · dsimp only at k2
    rw [if_pos hid] at k2
    cases k2
    obtain ⟨hc', rfl⟩ := peek_closes h2 hid
    exact ⟨pre, [.all fs], rest, rfl, .term hread, rfl, hc, hc', rfl⟩

theorem expLoop_sound {n : Nat} (ht : TermSound n) (hl : ExpLoopSound n) :
    ExpLoopSound (n + 1) := by
  intro is es r hp h
  rw [expLoop] at h
  obtain ⟨⟨tok, s1⟩, h1, k1⟩ := bind_eq_ok.mp h
  by_cases hid : tok.id = .OR
  · dsimp only at k1
    rw [if_pos hid] at k1
    obtain ⟨r', rfl, rfl⟩ := peek_or hp h1 hid
    obtain ⟨⟨_, _⟩, hnext, k2⟩ := bind_eq_ok.mp k1
    cases hnext
    obtain ⟨⟨t, s2⟩, h2, k3⟩ := bind_eq_ok.mp k2
    obtain ⟨⟨ts, s3⟩, h3, k4⟩ := bind_eq_ok.mp k3
    cases k4
    have hp' : ∀ i ∈ r', Proper i := fun i hi => hp i (by simp [hi])
    obtain ⟨pre, fs, rest, rfl, hread, rfl, hc, rfl⟩ := ht r' t s2 hp' h2
    have hp1 : ∀ i ∈ rest, Proper i := fun i hi => hp' i (by simp [hi])
    obtain ⟨us, hrest, hlen, hu⟩ := settle_split hp1 hc rfl
    have hp2 : ∀ i ∈ settle rest, Proper i := by
      intro i hi
      refine hp1 i ?_
      rw [hrest]
      simp [hi]
    right
    rcases hl _ ts _ hp2 h3 with
      ⟨hc', rfl, rfl⟩ | ⟨pre', ss, rest', hs, hne, hread', rfl, hand, hor, rfl⟩
    · exact ⟨pre, [.all fs], rest, rfl, by simp, .term hread, rfl, hc, hc', rfl⟩
    · refine ⟨pre ++ us ++ keep orToken :: pre', .all fs :: ss, rest', ?_, by simp,
        .or hread hu hlen hread', rfl, hand, hor, rfl⟩
      rw [hrest, hs]
      simp
  · dsimp only at k1
    rw [if_neg hid] at k1
    cases k1
    obtain ⟨hc, rfl⟩ := peek_closes h1 hid
    exact .inl ⟨hc, rfl, rfl⟩

/-- The items that two lookaheads dropped before `s`. -/
theorem settle_split_two {rest s : List Item} (hp : ∀ i ∈ rest, Proper i)
    (hand : Closes .AND rest) (hor : Closes .OR (settle rest)) (h : settle (settle rest) = s) :
    ∃ us, rest = us ++ s ∧ us.length ≤ 2 ∧ (∀ u ∈ us, Dropped u) ∧
      (settle s ≠ s → us.length = 2) := by
  obtain ⟨us, hrest, hlen, hu⟩ := settle_split hp hand rfl
  have hp' : ∀ i ∈ settle rest, Proper i := by
    intro i hi
    refine hp i ?_
    rw [hrest]
    simp [hi]
  rcases settle_suffix (settle rest) with he | ⟨t, he⟩
  · rw [he] at h
    subst h
    exact ⟨us, hrest, by omega, hu, fun hs => absurd he hs⟩
  · have hd : Dropped (.token t false) := by
      have hprop := hp' (.token t false) (by rw [he]; simp)
      obtain ⟨t', r, hn, hid⟩ := hor
      rw [he] at hn
      cases hn
      refine ⟨rfl, ?_, hid⟩
      intro h'
      simp [Proper, h'] at hprop
    rw [h] at he
    refine ⟨us ++ [.token t false], ?_, by simp only [List.length_append]; simpa using hlen, ?_, ?_⟩
    · rw [List.append_assoc, List.singleton_append, ← he]
      exact hrest
    · intro u hmem
      rcases List.mem_append.mp hmem with hmem | hmem
      · exact hu u hmem
      · obtain rfl := List.mem_singleton.mp hmem
        exact hd
    · intro _
      rcases settle_suffix rest with he' | ⟨t', he'⟩
      · rw [he'] at he
        rw [he', he] at h
        rw [he] at he'
        simp at he'
      · have : us.length = 1 := by
          have := congrArg List.length hrest
          rw [he'] at this
          simp at this
          omega
        simp [this]

theorem factor_sound {n : Nat} (hf : FactorSound n) (he : ExpSound n) : FactorSound (n + 1) := by
  intro is e r hp h
  rw [factor] at h
  obtain ⟨⟨tok, s1⟩, h1, k1⟩ := bind_eq_ok.mp h
  dsimp only at k1
  split at k1
  · next hid =>
    obtain ⟨⟨f, s2⟩, h2, k2⟩ := bind_eq_ok.mp k1
    obtain ⟨d, h3, k3⟩ := bind_eq_ok.mp k2
    cases k3
    obtain ⟨k, rfl⟩ := next_eq_ok h1 (by simp [hid])
    have htok := hp (.token tok k) (by simp)
    simp only [Proper, hid] at htok
    obtain ⟨pre, src, rfl, hread, rfl⟩ := hf s1 f _ (fun i hi => hp i (by simp [hi])) h2
    rw [Expression.negate_plain _ (tree_plain src hread.plain)] at h3
    cases h3
    exact ⟨.token tok k :: pre, .not src, rfl, htok ▸ .not k hread, rfl⟩
  · split at k1
    · next hid =>
      obtain ⟨⟨d, s2⟩, h2, k4⟩ := bind_eq_ok.mp k1
      obtain ⟨⟨right, s3⟩, h3, k5⟩ := bind_eq_ok.mp k4
      obtain ⟨k, rfl⟩ := next_eq_ok h1 (by simp [hid])
      have htok := hp (.token tok k) (by simp)
      simp only [Proper, hid] at htok
      subst htok
      have hp1 : ∀ i ∈ s1, Proper i := fun i hi => hp i (by simp [hi])
      obtain ⟨pre, ts, rest, rfl, hread, rfl, hand, hor, hs2⟩ := he s1 d s2 hp1 h2
      dsimp only at k5
      split at k5
      · simp at k5
      · next hright =>
        cases k5
        rw [not_not] at hright
        obtain ⟨us, hrest, hlen, hu, -⟩ :=
          settle_split_two (fun i hi => hp1 i (by simp [hi])) hand hor hs2.symm
        obtain ⟨k', rfl⟩ := next_eq_ok h3 (by simp [hright])
        have hr := hp (.token right k') (by simp [hrest])
        simp only [Proper, hright] at hr
        obtain ⟨rfl, rfl⟩ := hr
        refine ⟨.token leftToken k :: pre ++ us ++ [keep rightToken], .any ts, ?_,
          .group k hread hu hlen, rfl⟩
        simp [hrest, keep]
    · split at k1
      · next hid =>
        obtain ⟨⟨op, s2⟩, h2, k6⟩ := bind_eq_ok.mp k1
        dsimp only at k6
        split at k6
        · simp at k6
        · next hop =>
          rw [not_not] at hop
          obtain ⟨⟨v, s3⟩, h3, k7⟩ := bind_eq_ok.mp k6
          dsimp only at k7
          split at k7
          · simp at k7
          · next hv =>
            rw [not_not] at hv
            cases k7
            obtain ⟨k, rfl⟩ := next_eq_ok h1 (by simp [hid])
            obtain ⟨k', rfl⟩ := next_eq_ok h2 (by simp [hop])
            obtain ⟨k'', rfl⟩ := next_eq_ok h3 (by simp [hv])
            have hprop := hp (.token op k') (by simp)
            simp only [Proper, hop] at hprop
            obtain ⟨_, a⟩ := tok
            obtain ⟨_, o⟩ := op
            obtain ⟨_, b⟩ := v
            cases hid
            cases hop
            cases hv
            exact ⟨_, _, rfl, .predicate a o b k k' k'' hprop, rfl⟩
      · simp at k1

/-- Every successful run follows a derivation. -/
theorem sound (n : Nat) : FactorSound n ∧ TermSound n ∧ TermLoopSound n ∧ ExpSound n ∧
    ExpLoopSound n := by
  induction n with
  | zero =>
    refine ⟨?_, ?_, ?_, ?_, ?_⟩ <;> intro is e r _ h <;>
      simp [factor, term, termLoop, exp, expLoop] at h
  | succ n ih =>
    obtain ⟨hf, ht, htl, he, hel⟩ := ih
    exact ⟨factor_sound hf he, term_sound hf htl, termLoop_sound hf htl, exp_sound ht hel,
      expLoop_sound ht hel⟩

/-! ## Fuel -/

theorem next_onlyThrows (is : List Item) : OnlyThrows (next is) := by
  match is with
  | [] => exact onlyThrows_ok _
  | .token _ _ :: _ => exact onlyThrows_ok _
  | .bad msg :: _ => exact onlyThrows_throw msg

theorem peek_onlyThrows (is : List Item) : OnlyThrows (peek is) :=
  onlyThrows_bind (next_onlyThrows is) fun _ _ => onlyThrows_ok _

theorem Read.length_pos {l : Level} {is : List Item} {s : Source} (h : Read l is s) :
    0 < is.length := by
  induction h with
  | factor h ih => exact ih
  | term h ih => exact ih
  | _ =>
    simp only [List.length_append, List.length_cons]
    omega

def FactorRuns (n : Nat) : Prop := ∀ is, (∀ i ∈ is, Proper i) → 3 * is.length + 1 ≤ n →
  OnlyThrows (factor source n is)

def TermRuns (n : Nat) : Prop := ∀ is, (∀ i ∈ is, Proper i) → 3 * is.length + 2 ≤ n →
  OnlyThrows (term source n is) ∧ OnlyThrows (termLoop source n is)

def ExpRuns (n : Nat) : Prop := ∀ is, (∀ i ∈ is, Proper i) → 3 * is.length + 3 ≤ n →
  OnlyThrows (exp source n is) ∧ OnlyThrows (expLoop source n is)

/-- A factor uses up at least one item. -/
theorem factor_shortens {n : Nat} {is r : List Item} {e : Expression} (hp : ∀ i ∈ is, Proper i)
    (h : factor source n is = .ok (e, r)) :
    (∀ i ∈ r, Proper i) ∧ r.length + 1 ≤ is.length := by
  obtain ⟨pre, f, rfl, hread, -⟩ := (sound n).1 is e r hp h
  have := Read.length_pos hread
  exact ⟨fun i hi => hp i (by simp [hi]), by simp; omega⟩

theorem settle_length (is : List Item) : (settle is).length ≤ is.length := by
  rcases settle_suffix is with h | ⟨t, h⟩
  · exact Nat.le_of_eq (congrArg List.length h)
  · have := congrArg List.length h
    simp only [List.length_cons] at this
    omega

theorem mem_settle {is : List Item} {i : Item} (h : i ∈ settle is) : i ∈ is := by
  rcases settle_suffix is with he | ⟨t, he⟩
  · rwa [he] at h
  · rw [he]
    exact List.mem_cons_of_mem _ h

theorem term_shortens {n : Nat} {is r : List Item} {e : Expression} (hp : ∀ i ∈ is, Proper i)
    (h : term source n is = .ok (e, r)) :
    (∀ i ∈ r, Proper i) ∧ r.length + 1 ≤ is.length := by
  obtain ⟨pre, fs, rest, rfl, hread, -, -, rfl⟩ := (sound n).2.1 is e r hp h
  have := Read.length_pos hread
  have := settle_length rest
  refine ⟨fun i hi => hp i ?_, by simp; omega⟩
  simp [mem_settle hi]

theorem factor_runs {n : Nat} (hf : FactorRuns n) (he : ExpRuns n) : FactorRuns (n + 1) := by
  intro is hp hn
  rw [factor]
  refine onlyThrows_bind (next_onlyThrows is) ?_
  rintro ⟨tok, s⟩ h1
  have hs : tok.id ≠ .END → (∀ i ∈ s, Proper i) ∧ s.length + 1 = is.length := by
    intro hid
    obtain ⟨k, rfl⟩ := next_eq_ok h1 hid
    exact ⟨fun i hi => hp i (by simp [hi]), by simp⟩
  dsimp only
  split
  · next hid =>
    obtain ⟨hps, hlen⟩ := hs (by simp [hid])
    refine onlyThrows_bind (hf s hps (by omega)) ?_
    rintro ⟨f, s2⟩ h2
    obtain ⟨pre, src, -, hread, rfl⟩ := (sound n).1 s f s2 hps h2
    dsimp only
    rw [Expression.negate_plain _ (tree_plain src hread.plain)]
    exact onlyThrows_ok _
  · split
    · next hid =>
      obtain ⟨hps, hlen⟩ := hs (by simp [hid])
      refine onlyThrows_bind (he s hps (by omega)).1 fun p _ => ?_
      refine onlyThrows_bind (next_onlyThrows p.2) fun q _ => ?_
      split
      · exact onlyThrows_throw _
      · exact onlyThrows_ok _
    · split
      · refine onlyThrows_bind (next_onlyThrows s) fun p _ => ?_
        split
        · exact onlyThrows_throw _
        · refine onlyThrows_bind (next_onlyThrows p.2) fun q _ => ?_
          split
          · exact onlyThrows_throw _
          · exact onlyThrows_ok _
      · exact onlyThrows_throw _

theorem term_runs {n : Nat} (hf : FactorRuns n) (ht : TermRuns n) : TermRuns (n + 1) := by
  intro is hp hn
  constructor
  · rw [term]
    refine onlyThrows_bind (hf is hp (by omega)) ?_
    rintro ⟨f, s1⟩ h1
    obtain ⟨hps, hlen⟩ := factor_shortens hp h1
    refine onlyThrows_bind (peek_onlyThrows s1) ?_
    rintro ⟨tok, s2⟩ h2
    obtain ⟨-, rfl⟩ := peek_eq_ok.mp h2
    have hset := settle_length s1
    dsimp only
    split
    · exact onlyThrows_ok _
    · exact onlyThrows_bind (ht _ (fun i hi => hps i (mem_settle hi)) (by omega)).2
        fun _ _ => onlyThrows_ok _
  · rw [termLoop]
    refine onlyThrows_bind (peek_onlyThrows is) ?_
    rintro ⟨tok, s1⟩ h1
    dsimp only
    split
    · next hid =>
      obtain ⟨r', rfl, rfl⟩ := peek_and hp h1 hid
      simp only [List.length_cons] at hn
      have hp' : ∀ i ∈ r', Proper i := fun i hi => hp i (by simp [hi])
      change OnlyThrows (factor source n r' >>= _)
      refine onlyThrows_bind (hf r' hp' (by omega)) ?_
      rintro ⟨f, s2⟩ h2
      obtain ⟨hps, hlen⟩ := factor_shortens hp' h2
      exact onlyThrows_bind (ht s2 hps (by omega)).2 fun _ _ => onlyThrows_ok _
    · exact onlyThrows_ok _

theorem exp_runs {n : Nat} (ht : TermRuns n) (he : ExpRuns n) : ExpRuns (n + 1) := by
  intro is hp hn
  constructor
  · rw [exp]
    refine onlyThrows_bind (ht is hp (by omega)).1 ?_
    rintro ⟨t, s1⟩ h1
    obtain ⟨hps, hlen⟩ := term_shortens hp h1
    refine onlyThrows_bind (peek_onlyThrows s1) ?_
    rintro ⟨tok, s2⟩ h2
    obtain ⟨-, rfl⟩ := peek_eq_ok.mp h2
    have hset := settle_length s1
    dsimp only
    split
    · exact onlyThrows_ok _
    · exact onlyThrows_bind (he _ (fun i hi => hps i (mem_settle hi)) (by omega)).2
        fun _ _ => onlyThrows_ok _
  · rw [expLoop]
    refine onlyThrows_bind (peek_onlyThrows is) ?_
    rintro ⟨tok, s1⟩ h1
    dsimp only
    split
    · next hid =>
      obtain ⟨r', rfl, rfl⟩ := peek_or hp h1 hid
      simp only [List.length_cons] at hn
      have hp' : ∀ i ∈ r', Proper i := fun i hi => hp i (by simp [hi])
      change OnlyThrows (term source n r' >>= _)
      refine onlyThrows_bind (ht r' hp' (by omega)).1 ?_
      rintro ⟨t, s2⟩ h2
      obtain ⟨hps, hlen⟩ := term_shortens hp' h2
      exact onlyThrows_bind (he s2 hps (by omega)).2 fun _ _ => onlyThrows_ok _
    · exact onlyThrows_ok _

/-- With fuel for the length of the list, the only failures are exceptions. -/
theorem runs (n : Nat) : FactorRuns n ∧ TermRuns n ∧ ExpRuns n := by
  induction n with
  | zero => exact ⟨fun _ _ h => by omega, fun _ _ h => by omega, fun _ _ h => by omega⟩
  | succ n ih =>
    obtain ⟨hf, ht, he⟩ := ih
    exact ⟨factor_runs hf he, term_runs hf ht, exp_runs ht he⟩

/-! ## Whole texts -/

/-- The items the parser takes for an expression: a derivation, at most two
dropped items, and the end; or exactly two dropped items and then an item that
reads as the end, whatever follows it. -/
def Accepted (is : List Item) (s : Source) : Prop :=
  ∃ pre us rest, is = pre ++ us ++ rest ∧ Read .expression pre s ∧ (∀ u ∈ us, Dropped u) ∧
    us.length ≤ 2 ∧
    (rest = [] ∨ us.length = 2 ∧ ∃ t r, rest = .token t false :: r ∧ t.id = .END)

theorem parseFrom_accepted {is : List Item} {s : Source} (h : Accepted is s) (n : Nat)
    (hn : enough is.length ≤ n) : parseFrom source n is = .ok s.tree := by
  obtain ⟨pre, us, rest, rfl, hread, hu, hlen, hrest⟩ := h
  obtain ⟨ts, rfl, -, -, hp⟩ := Read.parses hread hread.plain
  have hfuel : 3 * pre.length + 3 ≤ n := by
    simp only [enough, List.length_append] at hn
    omega
  have hshape : Closes .AND (us ++ rest) ∧ Closes .OR (settle (us ++ rest)) ∧
      settle (settle (us ++ rest)) = rest := by
    rcases hrest with rfl | ⟨h2, t, r, rfl, hid⟩
    · exact settle_two hu hlen (closes_nil (by decide)) (closes_nil (by decide)) rfl
    · match us, h2, hu with
      | [u, w], _, hu =>
        have h := hu u (by simp)
        have h' := hu w (by simp)
        simpa [settle_append_dropped h, settle_append_dropped h'] using
          ⟨(closes_dropped h _).1, (closes_dropped h' _).2⟩
  obtain ⟨hand, hor, hset⟩ := hshape
  have he := (hp n (us ++ rest) hfuel hand hor).1
  rw [hset] at he
  rw [parseFrom, List.append_assoc, he]
  rcases hrest with rfl | ⟨-, t, r, rfl, hid⟩
  · rfl
  · change (if t.id ≠ .END then _ else _) = _
    rw [if_neg (by simpa using hid)]
    rfl

theorem accepted_of_parseFrom {is : List Item} {n : Nat} {e : Expression}
    (hp : ∀ i ∈ is, Proper i) (h : parseFrom source n is = .ok e) :
    ∃ s, Accepted is s ∧ e = s.tree := by
  rw [parseFrom] at h
  obtain ⟨⟨e', r⟩, h1, k1⟩ := bind_eq_ok.mp h
  obtain ⟨⟨tok, r'⟩, h2, k2⟩ := bind_eq_ok.mp k1
  dsimp only at k2
  split at k2
  · simp at k2
  · next hid =>
    rw [not_not] at hid
    cases k2
    obtain ⟨pre, ts, rest, rfl, hread, rfl, hand, hor, rfl⟩ := (sound n).2.2.2.1 is e r hp h1
    have hp1 : ∀ i ∈ rest, Proper i := fun i hi => hp i (by simp [hi])
    obtain ⟨us, hrest, hlen, hu, htwo⟩ := settle_split_two hp1 hand hor rfl
    have hmem : ∀ i ∈ settle (settle rest), Proper i :=
      fun i hi => hp1 i (mem_settle (mem_settle hi))
    refine ⟨.any ts, ⟨pre, us, settle (settle rest), ?_, hread, hu, hlen, ?_⟩, rfl⟩
    · rw [List.append_assoc, ← hrest]
    · change next (settle (settle rest)) = _ at h2
      generalize settle (settle rest) = tail at h2 hmem htwo
      match tail, h2 with
      | [], _ => exact .inl rfl
      | .token t k :: tl, h2 =>
        cases h2
        have hprop := hmem (.token tok k) (by simp)
        simp only [Proper, hid] at hprop
        subst hprop
        exact .inr ⟨htwo (by simp), tok, r', rfl, hid⟩

/-- The parser's outcome on a list of items: the tree of an accepted reading, or
`parse_exception`. -/
theorem parseFrom_items (is : List Item) (hp : ∀ i ∈ is, Proper i) (n : Nat)
    (hn : enough is.length ≤ n) :
    (∃ s, Accepted is s ∧ parseFrom source n is = .ok s.tree) ∨
      (¬ ∃ s, Accepted is s) ∧ ∃ msg, parseFrom source n is = throwParse msg := by
  by_cases h : ∃ s, Accepted is s
  · obtain ⟨s, hs⟩ := h
    exact .inl ⟨s, hs, parseFrom_accepted hs n hn⟩
  · refine .inr ⟨h, ?_⟩
    cases hr : parseFrom source n is with
    | ok e =>
      obtain ⟨s, hs, -⟩ := accepted_of_parseFrom hp hr
      exact absurd ⟨s, hs⟩ h
    | error f =>
      have hthrow : OnlyThrows (parseFrom source n is) := by
        refine onlyThrows_bind ((runs n).2.2 is hp hn).1 fun p _ => ?_
        refine onlyThrows_bind (next_onlyThrows p.2) ?_
        rintro ⟨tok, r⟩ -
        dsimp only
        split
        · exact onlyThrows_throw _
        · exact onlyThrows_ok _
      obtain ⟨msg, rfl⟩ := hthrow f hr
      exact ⟨msg, rfl⟩

end Netplay.ParserItems
