import Netplay.Lexemes

/-!
# What the grammar takes next

In front of every token of a derivation the tokens before it say of which kind it is. So the
word `in` is an operand or an operator by where it stands, and a text in which the lexer takes
one for the other is not accepted.
-/

namespace Netplay.Lexemes

open Text Lexer QueryParser Item LexerItems

/-- What comes next: a factor, the operator of a predicate, its value, or what follows a factor. -/
inductive Phase where
  | factor | operator | value | done
  deriving DecidableEq, Repr

namespace Phase

def next : Phase → TokenId → Option Phase
  | .factor, .NOT => some .factor
  | .factor, .LEFT => some .factor
  | .factor, .OPERAND => some .operator
  | .operator, .OPERATOR => some .value
  | .value, .OPERAND => some .done
  | .done, .AND => some .factor
  | .done, .OR => some .factor
  | .done, .RIGHT => some .done
  | _, _ => none

/-- Behind a factor an item that is not kept may be dropped. -/
def step : Phase → Item → Option Phase
  | .done, .token _ false => some .done
  | p, .token t _ => p.next t.id
  | _, .bad _ => none

@[simp] theorem step_keep (p : Phase) (t : LexToken) : p.step (keep t) = p.next t.id := by
  cases p <;> rfl

def after (p : Phase) (is : List Item) : Option Phase := is.foldlM step p

@[simp] theorem after_nil (p : Phase) : p.after [] = some p := rfl

@[simp] theorem after_cons (p : Phase) (i : Item) (is : List Item) :
    p.after (i :: is) = (p.step i).bind (·.after is) := rfl

theorem after_append (p : Phase) (is js : List Item) :
    p.after (is ++ js) = (p.after is).bind (·.after js) := by
  simp [after, List.foldlM_append]

/-- The tokens end what `p` begins. -/
def Ends (p : Phase) (ts : List LexToken) : Prop := p.after (ts.map keep) = some .done

theorem Ends.cons {p : Phase} {t : LexToken} {ts : List LexToken} (h : p.Ends (t :: ts)) :
    ∃ q, p.next t.id = some q ∧ q.Ends ts := by
  simpa only [Ends, List.map_cons, after_cons, step_keep, Option.bind_eq_some_iff] using h

theorem after_dropped {us : List Item} (hu : ∀ u ∈ us, Dropped u) :
    Phase.done.after us = some .done := by
  induction us with
  | nil => rfl
  | cons u us ih =>
    match u, hu u List.mem_cons_self with
    | .token t false, _ => exact ih fun w hw => hu w (List.mem_cons_of_mem _ hw)

end Phase

theorem read_phase {l : Level} {is : List Item} {s : Source} (h : Read l is s) :
    Phase.factor.after is = some .done := by
  induction h with
  | predicate a op v ka ko kv h => rfl
  | not k h ih => exact ih
  | @group is us e k h hu hlen ih =>
    change Phase.factor.after (is ++ us ++ [keep rightToken]) = _
    rw [Phase.after_append, Phase.after_append, ih, Option.bind_some, Phase.after_dropped hu]
    rfl
  | factor h ih => exact ih
  | and hf h ihf ih =>
    rw [Phase.after_append, ihf]
    exact ih
  | term h ih => exact ih
  | or ht hu hlen h iht ih =>
    rw [Phase.after_append, Phase.after_append, iht, Option.bind_some, Phase.after_dropped hu]
    exact ih

theorem derives_phase {l : Level} {ts : List LexToken} {s : Source} (h : Derives l ts s) :
    Phase.factor.Ends ts := read_phase (.ofDerives h)

/-! ## The lexeme that stands next -/

/-- Only `||` and `)` have strays in front of them. -/
theorem passed_none {n : Nat} {t : LexToken} (h : Passed n t) (hor : t.id ≠ .OR)
    (hright : t.id ≠ .RIGHT) : n = 0 := by
  rcases h with rfl | ⟨-, rfl⟩ | ⟨-, rfl⟩
  · rfl
  · exact absurd rfl hor
  · exact absurd rfl hright

theorem strays_none {s : Bytes} (h : Strays 0 s) : s = [] := by
  cases h
  rfl

theorem strewn_ne_nil {L : LexToken → Bytes → Prop} (hL : ∀ t r, L t r → Lexeme t r) {r : Bytes}
    {t : LexToken} {ts : List LexToken} (h : Strewn L r (t :: ts)) : r ≠ [] := by
  cases h with
  | lexeme hs hn hsp ht h => simp [lexeme_value_ne (hL _ _ ht)]

/-- A word before an operand has white space behind it. -/
theorem spaceAhead_operand {r v : Bytes} {ts : List LexToken}
    (h : Strewn Lexeme r (operandToken v :: ts)) (hr : WordEnds r) : spaceAhead r = true := by
  generalize hts : operandToken v :: ts = us at h
  cases h with
  | done => cases hts
  | @lexeme n s sp r t us hs hn hsp ht h =>
    obtain ⟨rfl, -⟩ := List.cons.inj hts
    obtain rfl := passed_none hn nofun nofun
    obtain rfl := strays_none hs
    cases sp with
    | cons c sp => exact hsp c List.mem_cons_self
    | nil =>
      cases ht with
      | operand c v _ hv hr' =>
        have hc : opvalid c = false := hr c rfl
        exact absurd ((hv c List.mem_cons_self).symm.trans hc) (by decide)

/-- A lexeme that starts with `i` is a word. -/
theorem lexeme_word {t : LexToken} {r : Bytes} (h : Lexeme t r)
    (hi : t.value.head? = some (ch 'i')) :
    (∃ v, t = operandToken (ch 'i' :: v) ∧ (∀ d ∈ v, opvalid d = true) ∧ WordEnds r) ∨
      t = operatorToken (lit "in") := by
  cases h with
  | or | and | left | right | not | notMember => exact absurd hi (by decide)
  | equality c _ hc =>
    obtain rfl := Option.some.inj hi
    exact absurd hc (by decide)
  | strict c _ hc =>
    obtain rfl := Option.some.inj hi
    exact absurd hc (by decide)
  | member => exact .inr rfl
  | operand c v _ hv hr =>
    obtain rfl := Option.some.inj hi
    exact .inl ⟨v, rfl, fun d hd => hv d (List.mem_cons_of_mem _ hd), hr⟩

/-- The lexer takes `t` for another token. -/
def Mistaken (t : LexToken) (r : Bytes) : Prop :=
  t = operandToken (lit "in") ∧ spaceAhead r = true ∨ t = notToken ∧ inAhead r = true

theorem inAhead_eq {r : Bytes} (h : inAhead r = true) :
    ∃ r', r = ch 'i' :: ch 'n' :: r' ∧ spaceAhead r' = true := by
  match r with
  | c :: d :: r =>
    simp only [inAhead, Bool.and_eq_true, decide_eq_true_eq] at h
    obtain ⟨⟨rfl, rfl⟩, hr⟩ := h
    exact ⟨r, rfl, hr⟩

/-- A word that starts with `in` and white space is the word `in`. -/
theorem word_in {c : UInt8} {v r : Bytes} (hv : ∀ d ∈ c :: v, opvalid d = true) (hr : WordEnds r)
    (hin : inAhead (c :: v ++ r) = true) : c :: v = lit "in" ∧ spaceAhead r = true := by
  obtain ⟨r', heq, hsp⟩ := inAhead_eq hin
  obtain ⟨rfl, hv'⟩ := List.cons.inj (heq : c :: (v ++ r) = _)
  cases v with
  | nil =>
    subst hv'
    exact absurd (hr (ch 'n') rfl) (by decide)
  | cons d v =>
    obtain ⟨rfl, hr'⟩ := List.cons.inj (hv' : d :: (v ++ r) = _)
    cases v with
    | nil =>
      subst hr'
      exact ⟨rfl, hsp⟩
    | cons d v =>
      obtain rfl : d :: (v ++ r) = r' := hr'
      exact absurd ((hv d (by simp)).symm.trans (space_not_opvalid hsp)) (by decide)

/-- In front of the rest of a derivation the lexer takes every lexeme, or mistakes it. -/
theorem taken_or_mistaken {p : Phase} {t : LexToken} {r : Bytes} {ts : List LexToken}
    (ht : Lexeme t r) (h : Strewn Lexeme r ts) (hp : p.Ends (t :: ts)) : Taken t r ∨ Mistaken t r := by
  have operator : t.id = .OPERATOR → WordEnds r → spaceAhead r = true := by
    intro hid hr
    obtain ⟨q, hq, hends⟩ := hp.cons
    rw [hid] at hq
    obtain ⟨rfl, rfl⟩ : p = .operator ∧ q = .value := by
      cases p <;> simp_all [Phase.next]
    cases ts with
    | nil => cases hends
    | cons u us =>
      obtain ⟨q, hq, -⟩ := hends.cons
      have hu : u.id = .OPERAND := by
        cases hu : u.id <;> simp_all [Phase.next]
      obtain ⟨id, v⟩ := u
      obtain rfl : id = .OPERAND := hu
      exact spaceAhead_operand h hr
  cases ht with
  | or => exact .inl (.or r)
  | and => exact .inl (.and r)
  | left => exact .inl (.left r)
  | right => exact .inl (.right r)
  | equality c _ hc => exact .inl (.equality c r hc)
  | strict c _ hc hr => exact .inl (.strict c r hc hr)
  | not _ hr =>
    cases hin : inAhead r with
    | true => exact .inr (.inr ⟨rfl, hin⟩)
    | false => exact .inl (.not r hr hin)
  | member _ hr => exact .inl (.member r (operator rfl hr))
  | notMember _ hr => exact .inl (.notMember r (operator rfl hr))
  | operand c v _ hv hr =>
    cases hin : inAhead (c :: v ++ r) with
    | true =>
      obtain ⟨heq, hsp⟩ := word_in hv hr hin
      exact .inr (.inl ⟨congrArg operandToken heq, hsp⟩)
    | false => exact .inl (.operand c v r hv hr hin)

/-- The lexeme that starts a factor at the first byte, which is an `i`. -/
theorem factor_word {L : LexToken → Bytes → Prop} (hL : ∀ t r, L t r → Lexeme t r) {r : Bytes}
    {ts : List LexToken} (h : Strewn L r ts) (hp : Phase.factor.Ends ts)
    (hi : r.head? = some (ch 'i')) :
    ∃ v r' us, r = ch 'i' :: v ++ r' ∧ ts = operandToken (ch 'i' :: v) :: us ∧
      (∀ d ∈ v, opvalid d = true) ∧ WordEnds r' ∧ L (operandToken (ch 'i' :: v)) r' ∧
      Strewn L r' us := by
  cases h with
  | done => cases hp
  | @lexeme n s sp r t us hs hn hsp ht h =>
    obtain ⟨q, hq, -⟩ := hp.cons
    obtain rfl := passed_none hn (fun hid => by simp [hid, Phase.next] at hq)
      fun hid => by simp [hid, Phase.next] at hq
    obtain rfl := strays_none hs
    cases sp with
    | cons c sp =>
      obtain rfl := Option.some.inj hi
      exact absurd (hsp (ch 'i') List.mem_cons_self) (by decide)
    | nil =>
      have hhead : t.value.head? = some (ch 'i') := by
        obtain ⟨c, v, hv⟩ := List.exists_cons_of_ne_nil (lexeme_value_ne (hL _ _ ht))
        rw [hv] at hi ⊢
        exact hi
      rcases lexeme_word (hL _ _ ht) hhead with ⟨v, rfl, hv, hr⟩ | rfl
      · exact ⟨v, r, us, rfl, rfl, hv, hr, ht, h⟩
      · cases hq

/-- `!` in front of the word `in` is mistaken where the word is. -/
theorem not_evident_of_not {p : Phase} {r : Bytes} {ts : List LexToken}
    (h : Strewn Evident r ts) (hp : p.Ends (notToken :: ts)) : inAhead r = false := by
  obtain ⟨q, hq, hends⟩ := hp.cons
  obtain rfl : q = .factor := by
    cases p <;> simp_all [Phase.next, notToken]
  by_contra hin
  rw [Bool.not_eq_false] at hin
  obtain ⟨r', hr, -⟩ := inAhead_eq hin
  obtain ⟨v, r, us, rfl, rfl, hv, hend, ht, -⟩ :=
    factor_word (fun _ _ ht => ht.1) h hends (by rw [hr]; rfl)
  have hword : ∀ d ∈ ch 'i' :: v, opvalid d = true := List.forall_mem_cons.mpr ⟨by decide, hv⟩
  obtain ⟨heq, hsp⟩ := word_in hword hend hin
  exact ht.2 ⟨congrArg operandToken heq, hsp⟩

/-- In front of the rest of a derivation the lexer takes every evident lexeme. -/
theorem taken_of_evident {p : Phase} {t : LexToken} {r : Bytes} {ts : List LexToken}
    (ht : Evident t r) (h : Strewn Evident r ts) (hp : p.Ends (t :: ts)) : Taken t r := by
  have hl : Strewn Lexeme r ts := h.mono fun _ _ ht => ht.1
  rcases taken_or_mistaken ht.1 hl hp with htaken | ⟨rfl, hsp⟩ | ⟨rfl, hin⟩
  · exact htaken
  · exact absurd ⟨rfl, hsp⟩ ht.2
  · exact absurd hin (by simp [not_evident_of_not h hp])

theorem spelled_taken {p : Phase} {r : Bytes} {ts : List LexToken} (h : Spelled Evident r ts)
    (hp : p.Ends ts) : Spelled Taken r ts := by
  induction h generalizing p with
  | done hsp => exact .done hsp
  | lexeme hsp ht h ih =>
    obtain ⟨q, -, hq⟩ := hp.cons
    exact .lexeme hsp (taken_of_evident ht h.strewn hp) (ih hq)

theorem strewn_taken {p : Phase} {r : Bytes} {ts : List LexToken} (h : Strewn Evident r ts)
    (hp : p.Ends ts) : Strewn Taken r ts := by
  induction h generalizing p with
  | done hs => exact .done hs
  | lexeme hs hn hsp ht h ih =>
    obtain ⟨q, -, hq⟩ := hp.cons
    exact .lexeme hs hn hsp (taken_of_evident ht h hp) (ih hq)

/-- The lexer makes an operator of a mistaken lexeme. -/
theorem items_mistaken {t : LexToken} {r : Bytes} (h : Mistaken t r) :
    t.id ≠ .OPERATOR ∧ ∃ i is, items (t.value ++ r) = keep i :: is ∧ i.id = .OPERATOR := by
  rcases h with ⟨rfl, hsp⟩ | ⟨rfl, hin⟩
  · have hr : r ≠ [] := by
      rintro rfl
      cases hsp
    have hitems := items_taken (.member r hsp) (.inl hr) nofun
    exact ⟨by decide, _, _, hitems, rfl⟩
  · obtain ⟨r', rfl, hsp⟩ := inAhead_eq hin
    have hr : r' ≠ [] := by
      rintro rfl
      cases hsp
    have hitems := items_taken (.notMember r' hsp) (.inl hr) nofun
    exact ⟨by decide, _, _, hitems, rfl⟩

/-- A derivation does not end in `!` and one operand. -/
theorem not_before_word {L : LexToken → Bytes → Prop} (hL : ∀ t r, L t r → Lexeme t r) {p : Phase}
    {r : Bytes} {ts : List LexToken} (h : Strewn L r ts) (hp : p.Ends (notToken :: ts)) :
    r ≠ [ch 'i'] := by
  rintro rfl
  obtain ⟨q, hq, hends⟩ := hp.cons
  obtain rfl : q = .factor := by
    cases p <;> simp_all [Phase.next, notToken]
  obtain ⟨v, r', us, hr, rfl, -, -, -, h⟩ := factor_word hL h hends rfl
  obtain ⟨rfl, rfl⟩ := List.append_eq_nil_iff.mp (List.cons.inj hr).2.symm
  cases us with
  | nil => cases hends
  | cons u us => exact absurd rfl (strewn_ne_nil hL h)

/-- The lexer finds the lexemes of a derivation up to the first that it mistakes. -/
theorem evident_or_mistaken {p : Phase} {r : Bytes} {ts : List LexToken} (h : Lexed r ts)
    (hp : p.Ends ts) : Spelled Evident r ts ∨ ∃ us t vs i is, ts = us ++ t :: vs ∧
      t.id ≠ .OPERATOR ∧ items r = us.map keep ++ keep i :: is ∧ i.id = .OPERATOR := by
  induction h generalizing p with
  | done hsp => exact .inl (.done hsp)
  | @lexeme sp r t ts hsp ht h ih =>
    rw [items_space _ hsp]
    obtain ⟨q, -, hq⟩ := hp.cons
    rcases taken_or_mistaken ht h.strewn hp with htaken | hm
    · rcases ih hq with he | ⟨us, u, vs, i, is, rfl, hu, hitems, hi⟩
      · exact .inl (.lexeme hsp htaken.evident he)
      · have hr : r ≠ [] := by
          cases us with
          | nil => exact strewn_ne_nil (fun _ _ => id) h.strewn
          | cons w us => exact strewn_ne_nil (fun _ _ => id) h.strewn
        have hfirst : t = notToken → r ≠ [ch 'i'] := fun hnot =>
          not_before_word (fun _ _ => id) h.strewn (hnot ▸ hp)
        refine .inr ⟨t :: us, u, vs, i, is, rfl, hu, ?_, hi⟩
        rw [items_taken htaken (.inl hr) hfirst, hitems]
        rfl
    · obtain ⟨hid, i, is, hitems, hi⟩ := items_mistaken hm
      exact .inr ⟨[], t, ts, i, is, rfl, hid, hitems, hi⟩

/-- An operator where a derivation has another token is not accepted. -/
theorem not_accepted_of_operator {us vs : List LexToken} {t i : LexToken} {is : List Item}
    {src : Source} (hp : Phase.factor.Ends (us ++ t :: vs)) (ht : t.id ≠ .OPERATOR)
    (hi : i.id = .OPERATOR) : ¬ ParserItems.Accepted (us.map keep ++ keep i :: is) src := by
  rintro ⟨pre, ws, rest, heq, hread, hws, -, hrest⟩
  have hread := read_phase hread
  rw [Phase.Ends, List.map_append, Phase.after_append, Option.bind_eq_some_iff] at hp
  obtain ⟨p, hus, hends⟩ := hp
  obtain ⟨q, hq, -⟩ := Phase.Ends.cons hends
  have hstop : p.next i.id = none := by
    rw [hi]
    cases p with
    | operator => exact absurd hq (by cases hid : t.id <;> simp_all [Phase.next])
    | _ => rfl
  -- The operator stands among the items read, for what is dropped behind them is not kept.
  have hdrop : ∀ x xs, ws ++ rest = x :: xs → ∀ t, x ≠ keep t := by
    rintro x xs hx t rfl
    cases ws with
    | cons w ws =>
      obtain ⟨rfl, -⟩ := List.cons.inj hx
      exact absurd (hws _ List.mem_cons_self).1 nofun
    | nil =>
      obtain rfl | ⟨hlen, -⟩ := hrest
      · cases hx
      · exact absurd hlen nofun
  have hpre : ∃ js, pre = us.map keep ++ keep i :: js := by
    rw [List.append_assoc] at heq
    rcases List.append_eq_append_iff.mp heq with ⟨js, hpre, hjs⟩ | ⟨js, hus, hjs⟩
    · cases js with
      | cons j js =>
        obtain ⟨rfl, -⟩ := List.cons.inj hjs
        exact ⟨js, hpre⟩
      | nil => exact absurd rfl (hdrop _ _ hjs.symm i)
    · cases js with
      | cons j js =>
        obtain ⟨u, -, hu⟩ := List.mem_map.mp (hus ▸ List.mem_append_right pre List.mem_cons_self)
        exact absurd hu.symm (hdrop _ _ hjs u)
      | nil => exact absurd rfl (hdrop _ _ hjs i)
  obtain ⟨js, rfl⟩ := hpre
  rw [Phase.after_append, hus] at hread
  simp [hstop] at hread

end Netplay.Lexemes
