import Netplay.TokenPhases

/-!
# Texts with strays

The byte `0xFF`, and a `!`, `<`, `>` or word `i` at the end of the text, are lost where a
lookahead comes upon them. A text is accepted exactly if its lexemes without these strays are
those of the grammar.
-/

namespace Netplay.Lexemes

open Text Lexer QueryParser Item LexerItems

/-- The item of a byte `0xFF`. -/
def strayItem : Item := .token ⟨.END, []⟩ false

/-- The item is that of the token, or that of the operand `i` at the end of a text. -/
def Stands (i : Item) (t : LexToken) : Prop :=
  i = keep t ∨ i = .token (operandToken []) false ∧ t = operandToken [ch 'i']

/-- Items of the tokens, with strays in front of them. -/
inductive Gapped : List Item → List LexToken → Prop where
  | nil : Gapped [] []
  | cons {n : Nat} {i : Item} {t : LexToken} {is : List Item} {ts : List LexToken}
      (hn : Passed n t) (hi : Stands i t) (h : Gapped is ts) :
      Gapped (List.replicate n strayItem ++ i :: is) (t :: ts)

/-- What may stand behind the items of an expression. -/
def Behind (is : List Item) : Prop :=
  ∃ us rest, is = us ++ rest ∧ (∀ u ∈ us, Dropped u) ∧ us.length ≤ 2 ∧
    (rest = [] ∨ us.length = 2 ∧ ∃ t r, rest = .token t false :: r ∧ t.id = .END)

theorem accepted_iff {is : List Item} {src : Source} : ParserItems.Accepted is src ↔
    ∃ pre tl, is = pre ++ tl ∧ Read .expression pre src ∧ Behind tl := by
  constructor
  · rintro ⟨pre, us, rest, rfl, hread, hus, hlen, hrest⟩
    exact ⟨pre, us ++ rest, List.append_assoc pre us rest, hread, us, rest, rfl, hus, hlen, hrest⟩
  · rintro ⟨pre, _, rfl, hread, us, rest, rfl, hus, hlen, hrest⟩
    exact ⟨pre, us, rest, (List.append_assoc pre us rest).symm, hread, hus, hlen, hrest⟩

/-! ## The items of a text with strays -/

theorem items_eof (r : Bytes) : items (eofChar :: r) = strayItem :: items r := by
  rw [items_eq]
  rfl

theorem items_strays {n : Nat} {s : Bytes} (h : Strays n s) (r : Bytes) :
    items (s ++ r) = List.replicate n strayItem ++ items r := by
  induction h with
  | none => rfl
  | @byte n sp s hsp h ih =>
    rw [List.append_assoc, items_space _ hsp, List.cons_append, items_eof, ih]
    rfl

theorem dropped_stray : Dropped strayItem := ⟨rfl, nofun, nofun⟩

theorem dropped_strays {n : Nat} : ∀ u ∈ List.replicate n strayItem, Dropped u := fun u hu => by
  obtain rfl := List.eq_of_mem_replicate hu
  exact dropped_stray

/-- A stray that ends the text. -/
theorem items_last {e : Bytes} (he : e ∈ lastStrays) : ∃ u, items e = [u] ∧ Dropped u := by
  simp only [lastStrays, List.mem_cons, List.not_mem_nil, or_false] at he
  rcases he with rfl | rfl | rfl | rfl | rfl <;> exact ⟨_, rfl, rfl, nofun, nofun⟩

theorem items_white {sp : Bytes} (hsp : ∀ c ∈ sp, iswspace c = true) : items sp = [] := by
  have := items_space [] hsp
  rwa [List.append_nil] at this

theorem items_trail {s : Bytes} (h : Trail s) : Behind (items s) := by
  cases h with
  | @strays n s sp hs hn hsp =>
    refine ⟨List.replicate n strayItem, [], ?_, dropped_strays, by simpa using hn, .inl rfl⟩
    rw [items_strays hs, items_white hsp]
  | @last n s sp e hs hn hsp he =>
    obtain ⟨u, hu, hdrop⟩ := items_last he
    refine ⟨List.replicate n strayItem ++ [u], [], ?_, ?_, ?_, .inl rfl⟩
    · rw [items_strays hs, items_space _ hsp, hu, List.append_nil]
    · intro w hw
      rcases List.mem_append.mp hw with hw | hw
      · exact dropped_strays w hw
      · rwa [List.mem_singleton.mp hw]
    · rw [List.length_append, List.length_replicate]
      exact Nat.succ_le_succ hn
  | @stopped s sp hs hsp r =>
    refine ⟨List.replicate 2 strayItem, strayItem :: items r, ?_, dropped_strays, Nat.le_refl 2,
      .inr ⟨rfl, _, _, rfl, rfl⟩⟩
    rw [items_strays hs, items_space _ hsp, items_eof]

/-- The lexer finds the lexemes of a text with strays, and loses an operand `i` at the end. -/
theorem items_strewn {p : Phase} {r : Bytes} {ts : List LexToken} (h : Strewn Taken r ts)
    (hp : p.Ends ts) : ∃ is tl, items r = is ++ tl ∧ Gapped is ts ∧ Behind tl := by
  induction h generalizing p with
  | done hs => exact ⟨[], _, rfl, .nil, items_trail hs⟩
  | @lexeme n s sp r t ts hs hn hsp ht h ih =>
    rw [items_strays hs, items_space _ hsp]
    obtain ⟨q, hq, hends⟩ := hp.cons
    have hl : Strewn Lexeme r ts := h.mono fun _ _ ht => ht.lexeme
    have hfirst : t = notToken → r ≠ [ch 'i'] := fun hnot =>
      not_before_word (fun _ _ => id) hl (hnot ▸ hp)
    by_cases hcut : r ≠ [] ∨ cut t.value = false
    · obtain ⟨is, tl, hitems, hgap, hbehind⟩ := ih hends
      refine ⟨_, tl, ?_, .cons hn (.inl rfl) hgap, hbehind⟩
      rw [items_taken ht hcut hfirst, hitems, List.append_assoc, List.cons_append]
    · rw [not_or, Classical.not_not, Bool.not_eq_false] at hcut
      obtain ⟨rfl, hcut⟩ := hcut
      obtain rfl : ts = [] := by
        cases ts with
        | nil => rfl
        | cons u us => exact absurd rfl (strewn_ne_nil (fun _ _ => id) hl)
      have hdone : p.next t.id = some .done := by
        cases hends
        exact hq
      rcases lexeme_cut ht.lexeme hcut with rfl | hid | rfl
      · cases p <;> cases hdone
      · rw [hid] at hdone
        cases p <;> cases hdone
      · exact ⟨_, [], (List.append_nil _).symm, .cons hn (.inr ⟨rfl, rfl⟩) .nil, [], [], rfl, nofun,
          Nat.zero_le 2, .inl rfl⟩

/-! ## Derivations and readings -/

theorem read_term_all {is : List Item} {s : Source} (h : Read .term is s) : ∃ fs, s = .all fs := by
  cases h with
  | factor h => exact ⟨_, rfl⟩
  | and hf h => exact ⟨_, rfl⟩

theorem read_expression_any {is : List Item} {s : Source} (h : Read .expression is s) :
    ∃ ts, s = .any ts := by
  cases h with
  | term h => exact ⟨_, rfl⟩
  | or ht hu hlen h => exact ⟨_, rfl⟩

theorem Gapped.split {ts us : List LexToken} : ∀ {is : List Item}, Gapped is (ts ++ us) →
    ∃ js ks, is = js ++ ks ∧ Gapped js ts ∧ Gapped ks us := by
  induction ts with
  | nil => exact fun h => ⟨[], _, rfl, .nil, h⟩
  | cons t ts ih =>
    intro is h
    cases h with
    | @cons n i _ is _ hn hi h =>
      obtain ⟨js, ks, rfl, hjs, hks⟩ := ih h
      exact ⟨_, ks, by rw [List.append_assoc, List.cons_append], .cons hn hi hjs, hks⟩

theorem Gapped.append {is js : List Item} {ts us : List LexToken} (h : Gapped is ts)
    (h' : Gapped js us) : Gapped (is ++ js) (ts ++ us) := by
  induction h with
  | nil => exact h'
  | cons hn hi h ih =>
    rw [List.append_assoc, List.cons_append, List.cons_append]
    exact .cons hn hi ih

/-- A token that is no operand stands for itself. -/
theorem Stands.eq {i : Item} {t : LexToken} (h : Stands i t) (ht : t.id ≠ .OPERAND) :
    i = keep t := by
  rcases h with h | ⟨-, rfl⟩
  · exact h
  · exact absurd rfl ht

/-- No strays stand in front of the token. -/
theorem Gapped.first {is : List Item} {t : LexToken} {ts : List LexToken}
    (h : Gapped is (t :: ts)) (hor : t.id ≠ .OR) (hright : t.id ≠ .RIGHT) :
    ∃ i js, is = i :: js ∧ Stands i t ∧ Gapped js ts := by
  cases h with
  | @cons n i _ js _ hn hi h =>
    obtain rfl := passed_none hn hor hright
    exact ⟨i, js, rfl, hi, h⟩

theorem Stands.operand {i : Item} {v : Bytes} (h : Stands i (operandToken v)) :
    ∃ w k, i = .token (operandToken w) k := by
  rcases h with rfl | ⟨rfl, -⟩
  · exact ⟨v, true, rfl⟩
  · exact ⟨[], false, rfl⟩

/-- The parser reads a derivation through the strays. -/
theorem read_gapped {l : Level} {ts : List LexToken} {src : Source} (h : Derives l ts src) :
    ∀ {is : List Item}, Gapped is ts → ∃ src', Read l is src' := by
  induction h with
  | predicate a op v hop =>
    intro is hg
    have hor : TokenId.OPERAND ≠ .OR := by decide
    have hright : TokenId.OPERAND ≠ .RIGHT := by decide
    have hoperator : TokenId.OPERATOR ≠ .OR ∧ TokenId.OPERATOR ≠ .RIGHT := by decide
    have hop' : TokenId.OPERATOR ≠ .OPERAND := by decide
    obtain ⟨i, js, rfl, hi, hjs⟩ := hg.first hor hright
    obtain ⟨j, ks, rfl, hj, hks⟩ := hjs.first hoperator.1 hoperator.2
    obtain ⟨k, ls, rfl, hk, hls⟩ := hks.first hor hright
    cases hls
    obtain ⟨a, ka, rfl⟩ := hi.operand
    obtain ⟨v, kv, rfl⟩ := hk.operand
    obtain rfl := hj.eq hop'
    exact ⟨_, .predicate a op v ka true kv hop⟩
  | not h ih =>
    intro is hg
    obtain ⟨i, js, rfl, hi, hjs⟩ := hg.first (by decide) (by decide)
    obtain rfl := hi.eq (by decide)
    obtain ⟨src, hread⟩ := ih hjs
    exact ⟨_, .not true hread⟩
  | group h ih =>
    intro is hg
    obtain ⟨i, rs, rfl, hi, hrs⟩ := hg.first (by decide) (by decide)
    obtain rfl := hi.eq (by decide)
    obtain ⟨js, ks, rfl, hjs, hks⟩ := hrs.split
    obtain ⟨src, hread⟩ := ih hjs
    cases hks with
    | @cons n i _ ks _ hn hi hks =>
      cases hks
      obtain rfl := hi.eq (by decide)
      have hn' : n ≤ 2 := by
        rcases hn with rfl | ⟨hn, -⟩ | ⟨hn, -⟩ <;> omega
      refine ⟨src, ?_⟩
      have hgroup := Read.group true hread (@dropped_strays n) (by simpa using hn')
      simpa [keep] using hgroup
  | factor h ih =>
    intro is hg
    obtain ⟨src, hread⟩ := ih hg
    exact ⟨_, .factor hread⟩
  | and hf h ihf ih =>
    intro is hg
    obtain ⟨js, ks, rfl, hjs, hks⟩ := hg.split
    obtain ⟨i, ls, rfl, hi, hls⟩ := hks.first (by decide) (by decide)
    obtain rfl := hi.eq (by decide)
    obtain ⟨f, hf⟩ := ihf hjs
    obtain ⟨fs, hfs⟩ := ih hls
    obtain ⟨gs, rfl⟩ := read_term_all hfs
    exact ⟨_, .and hf hfs⟩
  | term h ih =>
    intro is hg
    obtain ⟨src, hread⟩ := ih hg
    exact ⟨_, .term hread⟩
  | or ht h iht ih =>
    intro is hg
    obtain ⟨js, ks, rfl, hjs, hks⟩ := hg.split
    obtain ⟨t, ht⟩ := iht hjs
    cases hks with
    | @cons n i _ ks _ hn hi hks =>
      obtain rfl := hi.eq (by decide)
      obtain ⟨rs, hrs⟩ := ih hks
      obtain ⟨us, rfl⟩ := read_expression_any hrs
      have hn' : n ≤ 1 := by
        rcases hn with rfl | ⟨hn, -⟩ | ⟨-, hright⟩
        · exact Nat.zero_le 1
        · exact hn
        · cases hright
      have hor := Read.or ht (@dropped_strays n) (by simpa using hn') hrs
      exact ⟨_, by simpa using hor⟩

/-- Only strays are lost, but for the last item; an operand that is lost is empty. -/
def Lossy (is : List Item) : Prop :=
  ∀ pre t post, is = pre ++ .token t false :: post →
    t = ⟨.END, []⟩ ∨ post = [] ∧ (t.id = .OPERAND → t = operandToken [])

theorem Lossy.left {is js : List Item} (h : Lossy (is ++ js)) : Lossy is := by
  rintro pre t post rfl
  rcases h pre t (post ++ js) (by rw [List.append_assoc]; rfl) with ht | ⟨hpost, ht⟩
  · exact .inl ht
  · exact .inr ⟨(List.append_eq_nil_iff.mp hpost).1, ht⟩

theorem Lossy.right {is js : List Item} (h : Lossy (is ++ js)) : Lossy js := by
  rintro pre t post rfl
  exact h (is ++ pre) t post (List.append_assoc is pre _).symm

theorem Lossy.tail {i : Item} {is : List Item} (h : Lossy (i :: is)) : Lossy is :=
  @Lossy.right [i] is h

/-- In front of another item all that is lost is strays. -/
theorem Lossy.strays {us js : List Item} {i : Item} (h : Lossy (us ++ i :: js))
    (hu : ∀ u ∈ us, Dropped u) : us = List.replicate us.length strayItem := by
  refine List.eq_replicate_iff.mpr ⟨rfl, fun u hmem => ?_⟩
  match u, hu u hmem with
  | .token t false, _ =>
    obtain ⟨pre, post, rfl⟩ := List.append_of_mem hmem
    rcases h pre t (post ++ i :: js) (by simp) with rfl | ⟨hpost, -⟩
    · rfl
    · simp at hpost

theorem Lossy.kept {t : LexToken} {k : Bool} {is : List Item} (h : Lossy (.token t k :: is))
    (ht : t.id ≠ .END) (his : is ≠ []) : k = true := by
  cases k with
  | true => rfl
  | false =>
    rcases h [] t is rfl with rfl | ⟨hnil, -⟩
    · exact absurd rfl ht
    · exact absurd hnil his

theorem items_lossy (r : Bytes) : Lossy (items r) := by
  induction hn : r.length using Nat.strongRecOn generalizing r with
  | _ n ih =>
    subst hn
    have hs := scan_spells r
    rw [items_eq]
    cases hsc : scan r with
    | finish => exact fun pre t post h => by simp at h
    | token t r' =>
      rintro (_ | ⟨i, pre⟩) u post h
      · cases h
      · obtain ⟨-, h⟩ := List.cons.inj h
        exact ih _ (scan_token_length hsc) r' rfl pre u post h
    | stop r' =>
      rintro (_ | ⟨i, pre⟩) u post h
      · obtain ⟨h, -⟩ := List.cons.inj h
        cases h
        exact .inl rfl
      · obtain ⟨-, h⟩ := List.cons.inj h
        exact ih _ (scan_stop_length hsc) r' rfl pre u post h
    | dangling t =>
      rw [hsc] at hs
      rintro (_ | ⟨i, pre⟩) u post h
      · obtain ⟨h, rfl⟩ := List.cons.inj h
        cases h
        refine .inr ⟨rfl, fun hid => ?_⟩
        rcases hs.2 with rfl | hop | ⟨rfl, -⟩
        · cases hid
        · simp [hop] at hid
        · rfl
      · simp at h
    | bad msg =>
      rintro (_ | ⟨i, pre⟩) u post h
      · simp at h
      · simp at h

theorem derives_term_all {ts : List LexToken} {src : Source} (h : Derives .term ts src) :
    ∃ fs, src = .all fs := read_term_all (.ofDerives h)

theorem derives_expression_any {ts : List LexToken} {src : Source}
    (h : Derives .expression ts src) : ∃ rs, src = .any rs := read_expression_any (.ofDerives h)

/-- What the parser reads is a derivation with strays. -/
theorem gapped_of_read {l : Level} {is : List Item} {src : Source} (h : Read l is src) :
    Lossy is → ∃ ts src', Derives l ts src' ∧ Gapped is ts := by
  induction h with
  | predicate a op v ka ko kv hop =>
    intro hl
    obtain rfl := hl.kept nofun nofun
    obtain rfl := hl.tail.kept nofun nofun
    cases kv with
    | true =>
      exact ⟨_, _, .predicate a op v hop, .cons (n := 0) (.inl rfl) (.inl rfl)
        (.cons (n := 0) (.inl rfl) (.inl rfl) (.cons (n := 0) (.inl rfl) (.inl rfl) .nil))⟩
    | false =>
      obtain rfl : v = [] := by
        rcases hl.tail.tail [] _ [] rfl with h | ⟨-, h⟩
        · cases h
        · exact congrArg LexToken.value (h rfl)
      exact ⟨_, _, .predicate a op [ch 'i'] hop, .cons (n := 0) (.inl rfl) (.inl rfl)
        (.cons (n := 0) (.inl rfl) (.inl rfl) (.cons (n := 0) (.inl rfl) (.inr ⟨rfl, rfl⟩) .nil))⟩
  | not k h ih =>
    intro hl
    obtain ⟨ts, src, hd, hg⟩ := ih hl.tail
    obtain rfl := hl.kept nofun fun hnil => by
      have hphase := read_phase h
      rw [hnil] at hphase
      cases hphase
    exact ⟨_, _, .not hd, .cons (n := 0) (.inl rfl) (.inl rfl) hg⟩
  | @group is us e k h hu hlen ih =>
    intro hl
    have hrest : Lossy (is ++ (us ++ [keep rightToken])) := by simpa using hl.tail
    obtain ⟨ts, src, hd, hg⟩ := ih hrest.left
    obtain rfl := hl.kept nofun (by simp)
    refine ⟨_, _, .group hd, ?_⟩
    have hright : Gapped (us ++ [keep rightToken]) [rightToken] := by
      rw [hrest.right.strays hu]
      exact .cons (.inr (.inr ⟨hlen, rfl⟩)) (.inl rfl) .nil
    have hall := Gapped.cons (n := 0) (t := leftToken) (.inl rfl) (.inl rfl) (hg.append hright)
    simpa [keep] using hall
  | factor h ih =>
    intro hl
    obtain ⟨ts, src, hd, hg⟩ := ih hl
    exact ⟨_, _, .factor hd, hg⟩
  | and hf h ihf ih =>
    intro hl
    obtain ⟨ts, f, hdf, hgf⟩ := ihf hl.left
    obtain ⟨us, fs, hds, hgs⟩ := ih hl.right.tail
    obtain ⟨fs, rfl⟩ := derives_term_all hds
    exact ⟨_, _, .and hdf hds, hgf.append (.cons (n := 0) (.inl rfl) (.inl rfl) hgs)⟩
  | term h ih =>
    intro hl
    obtain ⟨ts, src, hd, hg⟩ := ih hl
    exact ⟨_, _, .term hd, hg⟩
  | @or is us js t rs ht hu hlen h iht ih =>
    intro hl
    have hl : Lossy (is ++ (us ++ keep orToken :: js)) := by simpa using hl
    obtain ⟨ts, t, hdt, hgt⟩ := iht hl.left
    obtain ⟨vs, rs, hds, hgs⟩ := ih hl.right.right.tail
    obtain ⟨rs, rfl⟩ := derives_expression_any hds
    have hor : Gapped (us ++ keep orToken :: js) (orToken :: vs) := by
      rw [hl.right.strays hu]
      exact .cons (.inr (.inl ⟨hlen, rfl⟩)) (.inl rfl) hgs
    exact ⟨_, _, .or hdt hds, by simpa using hgt.append hor⟩

/-! ## The text of a list of items -/

theorem dropWhile_space {r r' : Bytes} (h : r.dropWhile iswspace = r') :
    ∃ sp, r = sp ++ r' ∧ ∀ c ∈ sp, iswspace c = true :=
  ⟨r.takeWhile iswspace, by rw [← h, List.takeWhile_append_dropWhile],
    fun _ hc => List.mem_takeWhile_imp hc⟩

theorem text_of_keep {r : Bytes} {t : LexToken} {js : List Item} (h : items r = keep t :: js) :
    ∃ sp r', r = sp ++ (t.value ++ r') ∧ (∀ c ∈ sp, iswspace c = true) ∧ Taken t r' ∧
      items r' = js := by
  have hs := scan_spells r
  rw [items_eq] at h
  cases hsc : scan r with
  | token u r' =>
    rw [hsc] at hs h
    obtain ⟨hu, hjs⟩ := List.cons.inj h
    obtain rfl := (keep_inj u t).mp hu
    obtain ⟨sp, rfl, hsp⟩ := dropWhile_space hs.1
    exact ⟨sp, r', rfl, hsp, hs.2, hjs⟩
  | _ => simp [hsc, keep] at h

/-- An item that is not kept is that of a stray or of the end of the text. -/
theorem text_of_dropped {r : Bytes} {t : LexToken} {js : List Item}
    (h : items r = .token t false :: js) :
    (t = ⟨.END, []⟩ ∧ ∃ sp r', r = sp ++ eofChar :: r' ∧ (∀ c ∈ sp, iswspace c = true) ∧
      items r' = js) ∨
    (js = [] ∧ ∃ sp e, r = sp ++ e ∧ (∀ c ∈ sp, iswspace c = true) ∧ e ∈ lastStrays ∧
      (t = notToken ∨ t.id = .OPERATOR ∨ t = operandToken [] ∧ e = [ch 'i'])) := by
  have hs := scan_spells r
  rw [items_eq] at h
  cases hsc : scan r with
  | stop r' =>
    rw [hsc] at hs h
    obtain ⟨hi, hjs⟩ := List.cons.inj h
    cases hi
    obtain ⟨sp, rfl, hsp⟩ := dropWhile_space hs
    exact .inl ⟨rfl, sp, r', rfl, hsp, hjs⟩
  | dangling u =>
    rw [hsc] at hs h
    obtain ⟨hi, rfl⟩ := List.cons.inj h
    cases hi
    obtain ⟨sp, heq, hsp⟩ := dropWhile_space rfl
    exact .inr ⟨rfl, sp, _, heq, hsp, hs.1, hs.2⟩
  | _ => simp [hsc, keep] at h

theorem white_of_items {r : Bytes} (h : items r = []) : ∀ c ∈ r, iswspace c = true := by
  have hs := scan_spells r
  rw [items_eq] at h
  cases hsc : scan r with
  | finish =>
    rw [hsc] at hs
    exact fun c hc => List.dropWhile_eq_nil_iff.mp hs c hc
  | _ => simp [hsc] at h

theorem text_of_strays {n : Nat} : ∀ {r : Bytes} {js : List Item},
    items r = List.replicate n strayItem ++ js →
      ∃ s r', r = s ++ r' ∧ Strays n s ∧ items r' = js := by
  induction n with
  | zero => exact fun h => ⟨[], _, rfl, .none, h⟩
  | succ n ih =>
    intro r js h
    rcases text_of_dropped h with ⟨-, sp, r, rfl, hsp, hrest⟩ | ⟨-, sp, e, -, -, -, ht⟩
    · obtain ⟨s, r', rfl, hs, hjs⟩ := ih hrest
      exact ⟨_, r', by rw [List.append_assoc, List.cons_append], .byte hsp hs, hjs⟩
    · rcases ht with ht | ht | ⟨ht, -⟩ <;> cases ht

theorem Strays.snoc {n : Nat} {s sp : Bytes} (h : Strays n s) (hsp : ∀ c ∈ sp, iswspace c = true) :
    Strays (n + 1) (s ++ (sp ++ [eofChar])) := by
  induction h with
  | none => exact .byte hsp .none
  | byte hsp' h ih =>
    rw [List.append_assoc, List.cons_append]
    exact .byte hsp' ih

/-- What the parser drops at the end of a text are strays; `n` have been seen already, and `k` more
may follow. -/
theorem trail_of_items {us rest : List Item} : ∀ {n k : Nat} {s r : Bytes}, Strays n s →
    n + k = 2 → items r = us ++ rest → (∀ u ∈ us, Dropped u) → us.length ≤ k →
    (rest = [] ∨ us.length = k ∧ ∃ t js, rest = .token t false :: js ∧ t.id = .END) →
    Trail (s ++ r) := by
  induction us with
  | nil =>
    intro n k s r hs hn hitems _ _ hrest
    rcases hrest with rfl | ⟨rfl, t, js, rfl, hid⟩
    · exact .strays hs (by omega) (white_of_items hitems)
    · obtain rfl : n = 2 := hn
      rcases text_of_dropped hitems with ⟨-, sp, r', rfl, hsp, -⟩ | ⟨-, sp, e, -, -, -, ht⟩
      · exact .stopped hs hsp r'
      · rcases ht with rfl | ht | ⟨rfl, -⟩
        · cases hid
        · exact absurd (ht.symm.trans hid) nofun
        · cases hid
  | cons u us ih =>
    intro n k s r hs hn hitems hus hlen hrest
    obtain ⟨k, rfl⟩ : ∃ j, k = j + 1 := ⟨k - 1, by simp at hlen; omega⟩
    match u, hus u List.mem_cons_self with
    | .token t false, _ =>
      rcases text_of_dropped hitems with ⟨-, sp, r', rfl, hsp, hjs⟩ | ⟨-, sp, e, rfl, hsp, he, -⟩
      · have hnext := @ih (n + 1) k _ r' (hs.snoc hsp) (by omega) hjs
          (fun w hw => hus w (List.mem_cons_of_mem _ hw)) (Nat.le_of_succ_le_succ hlen) ?_
        · simpa using hnext
        · rcases hrest with hrest | ⟨hlen, hrest⟩
          · exact .inl hrest
          · exact .inr ⟨Nat.succ.inj hlen, hrest⟩
      · exact .last hs (by omega) hsp he

/-- A text whose items are those of lexemes with strays is a text of lexemes with strays. -/
theorem strewn_of_items {is tl : List Item} {ts : List LexToken} (hg : Gapped is ts)
    (hb : Behind tl) : ∀ {r : Bytes}, items r = is ++ tl → Strewn Taken r ts := by
  induction hg with
  | nil =>
    intro r hitems
    obtain ⟨us, rest, rfl, hus, hlen, hrest⟩ := hb
    have hitems : items r = us ++ rest := hitems
    exact .done (trail_of_items .none rfl hitems hus hlen hrest)
  | @cons n i t is ts hn hi hg ih =>
    intro r hitems
    rw [List.append_assoc, List.cons_append] at hitems
    obtain ⟨s, r, rfl, hs, hrest⟩ := text_of_strays hitems
    rcases hi with rfl | ⟨rfl, rfl⟩
    · obtain ⟨sp, r', rfl, hsp, ht, hjs⟩ := text_of_keep hrest
      exact .lexeme hs hn hsp ht (ih hjs)
    · rcases text_of_dropped hrest with ⟨h, -⟩ | ⟨hnil, sp, e, rfl, hsp, -, h | h | ⟨-, rfl⟩⟩
      · cases h
      · cases h
      · cases h
      · have hi : Taken (operandToken [ch 'i']) [] :=
          .operand (ch 'i') [] [] (List.all_eq_true.mp (by decide)) nofun rfl
        have hlast := Strewn.lexeme hs hn hsp hi (ih (by rw [hnil]; rfl))
        simpa [operandToken] using hlast

end Netplay.Lexemes
