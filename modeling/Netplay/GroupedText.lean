import Netplay.ParserText

/-!
# A text inside `!( )`

The closing bracket turns a token that dangles at the end of a text into one
that is pushed back whole. So the negated group of an accepted text either has
the negated tree, or is rejected, unless the text ends in the operand `i`.
-/

namespace Netplay.GroupedText

open Text Lexer QueryParser Item LexerItems ParserText ParserItems

/-- `'!(' s ')'`. -/
def grouped (s : Bytes) : Bytes := lit "!(" ++ s ++ lit ")"

/-- The outcome of `scan` on a text and on the same text before a `)`. -/
def Closed : Scanned → Scanned → Prop
  | .finish, x => x = .token rightToken []
  | .token t r, x => x = .token t (r ++ lit ")")
  | .stop r, x => x = .stop (r ++ lit ")")
  | .dangling t, x => (t = notToken ∨ t.id = .OPERATOR ∨ t = operandToken []) ∧
      ∃ t' r, x = .token t' r ∧ t'.id = t.id
  | .bad _, _ => True

theorem closed_ite {p : Prop} [Decidable p] {a b a' b' : Scanned} (h : p → Closed a a')
    (h' : ¬p → Closed b b') : Closed (if p then a else b) (if p then a' else b') := by
  by_cases hp : p
  · simpa [hp] using h hp
  · simpa [hp] using h' hp

theorem pair_closed (id : TokenId) (c : UInt8) (msg r : Bytes) :
    Closed (scanPair id c msg r) (scanPair id c msg (r ++ lit ")")) := by
  match r with
  | [] => trivial
  | d :: r => exact closed_ite (fun _ => rfl) fun _ => trivial

theorem comparison_closed (c : UInt8) (r : Bytes) :
    Closed (scanComparison c r) (scanComparison c (r ++ lit ")")) := by
  match r with
  | [] => exact ⟨.inr (.inl rfl), operatorToken [c], lit ")", rfl, rfl⟩
  | d :: r => exact closed_ite (fun _ => rfl) fun _ => rfl

theorem spaceAhead_close (r : Bytes) : spaceAhead (r ++ lit ")") = spaceAhead r := by
  cases r <;> rfl

theorem bang_closed (r : Bytes) : Closed (scanBang r) (scanBang (r ++ lit ")")) := by
  match r with
  | [] => exact ⟨.inl rfl, notToken, lit ")", rfl, rfl⟩
  | c :: r =>
    refine closed_ite (fun _ => rfl) fun _ => closed_ite (fun _ => ?_) fun _ => rfl
    match r with
    | [] => exact ⟨.inl rfl, notToken, c :: lit ")", rfl, rfl⟩
    | d :: r =>
      change Closed
        (if d = ch 'n' && spaceAhead r then .token (operatorToken (lit "!in")) r
          else .token notToken (c :: d :: r))
        (if d = ch 'n' && spaceAhead (r ++ lit ")") then
            .token (operatorToken (lit "!in")) (r ++ lit ")")
          else .token notToken (c :: d :: r ++ lit ")"))
      rw [spaceAhead_close]
      exact closed_ite (fun _ => rfl) fun _ => rfl

theorem operand_closed (c : UInt8) (r : Bytes) :
    Closed (scanOperand c r) (scanOperand c (r ++ lit ")")) := by
  have hright : opvalid (ch ')') = false := by decide
  have htake : (r ++ lit ")").takeWhile opvalid = r.takeWhile opvalid := by
    induction r with
    | nil => simp [lit, hright]
    | cons d r ih => by_cases hd : opvalid d <;> simp [hd, ih]
  have hdrop : (r ++ lit ")").dropWhile opvalid = r.dropWhile opvalid ++ lit ")" := by
    clear htake
    induction r with
    | nil => simp [lit, hright]
    | cons d r ih => by_cases hd : opvalid d <;> simp [hd, ih]
  simp only [scanOperand, Closed, htake, hdrop]

theorem word_closed (r : Bytes) : Closed (scanWord r) (scanWord (r ++ lit ")")) := by
  match r with
  | [] => exact ⟨.inr (.inr rfl), operandToken [ch 'i'], lit ")", rfl, rfl⟩
  | d :: r =>
    simp only [List.cons_append, scanWord, spaceAhead_close]
    exact closed_ite (fun _ => rfl) fun _ => operand_closed _ (d :: r)

theorem scanFrom_closed (r : Bytes) : Closed (scanFrom r) (scanFrom (r ++ lit ")")) := by
  match r with
  | [] => rfl
  | c :: r =>
    exact closed_ite (fun _ => rfl) fun _ => closed_ite (fun _ => pair_closed _ _ _ _) fun _ =>
      closed_ite (fun _ => pair_closed _ _ _ _) fun _ => closed_ite (fun _ => bang_closed _) fun _ =>
      closed_ite (fun _ => rfl) fun _ => closed_ite (fun _ => rfl) fun _ =>
      closed_ite (fun _ => pair_closed _ _ _ _) fun _ =>
      closed_ite (fun _ => comparison_closed _ _) fun _ =>
      closed_ite (fun _ => comparison_closed _ _) fun _ => closed_ite (fun _ => trivial) fun _ =>
      closed_ite (fun _ => word_closed _) fun _ => operand_closed _ _

theorem scan_closed (r : Bytes) : Closed (scan r) (scan (r ++ lit ")")) := by
  have hdrop : (r ++ lit ")").dropWhile iswspace = r.dropWhile iswspace ++ lit ")" := by
    induction r with
    | nil => rfl
    | cons c r ih => by_cases hc : iswspace c <;> simp [hc, ih]
  rw [scan, scan, hdrop]
  exact scanFrom_closed _

/-- How the items of a text change before a `)`. -/
inductive Closing : List Item → List Item → Prop where
  | closed : Closing [] [keep rightToken]
  | bad (msg : Bytes) (more : List Item) : Closing [.bad msg] more
  | dangling (t t' : LexToken) (more : List Item) (hid : t'.id = t.id)
      (ht : t = notToken ∨ t.id = .OPERATOR ∨ t = operandToken []) :
      Closing [.token t false] (keep t' :: more)

theorem items_close (r : Bytes) : ∃ init tail tail', items r = init ++ tail ∧
    items (r ++ lit ")") = init ++ tail' ∧ Closing tail tail' := by
  induction hn : r.length using Nat.strongRecOn generalizing r with
  | _ n ih =>
    subst hn
    have hcl := scan_closed r
    rw [items_eq, items_eq (r ++ lit ")")]
    cases hs : scan r with
    | finish =>
      rw [hs] at hcl
      rw [(hcl : scan _ = _)]
      exact ⟨[], [], _, rfl, rfl, .closed⟩
    | token t r' =>
      rw [hs] at hcl
      rw [(hcl : scan _ = _)]
      obtain ⟨init, tail, tail', h, h', hc⟩ := ih _ (scan_token_length hs) r' rfl
      exact ⟨keep t :: init, tail, tail', by simp [h], by simp [h'], hc⟩
    | stop r' =>
      rw [hs] at hcl
      rw [(hcl : scan _ = _)]
      obtain ⟨init, tail, tail', h, h', hc⟩ := ih _ (scan_stop_length hs) r' rfl
      exact ⟨.token ⟨.END, []⟩ false :: init, tail, tail', by simp [h], by simp [h'], hc⟩
    | dangling t =>
      rw [hs] at hcl
      obtain ⟨ht, t', r', hx, hid⟩ := hcl
      rw [hx]
      exact ⟨[], _, _, rfl, rfl, .dangling t t' _ hid ht⟩
    | bad msg => exact ⟨[], _, _, rfl, rfl, .bad msg _⟩

theorem items_grouped (s : Bytes) :
    items (grouped s) = keep notToken :: keep leftToken :: items (s ++ lit ")") := by
  have h1 : scan (grouped s) = .token notToken (ch '(' :: (s ++ lit ")")) := rfl
  have h2 : scan (ch '(' :: (s ++ lit ")")) = .token leftToken (s ++ lit ")") := rfl
  rw [items_eq, h1]
  dsimp only
  rw [items_eq, h2]

/-- An accepted text without dangling tokens has the negated tree as a negated group. -/
theorem parse_grouped {s : Bytes} {pre us : List Item} {src : Source}
    (hi : items (s ++ lit ")") = pre ++ us ++ [keep rightToken]) (hread : Read .expression pre src)
    (hu : ∀ u ∈ us, Dropped u) (hlen : us.length ≤ 2) :
    parse (grouped s) = .ok src.tree.flip := by
  have hgroup : Read .expression (keep notToken :: (keep leftToken :: pre ++ us ++ [keep rightToken]))
      (.any [.all [.not src]]) :=
    .term (.factor (.not true (.group true hread hu hlen)))
  have hacc : Accepted (items (grouped s)) (.any [.all [.not src]]) := by
    refine ⟨_, [], [], ?_, hgroup, by simp, by simp, .inl rfl⟩
    rw [items_grouped, hi]
    simp
  exact parse_accepted hacc

/-- A group whose expression is not followed by `)` is rejected. -/
theorem group_rejected {pre us rest r : List Item} {src : Source} {t : LexToken} {m : Nat}
    (hread : Read .expression pre src) (hm : 3 * pre.length + 3 ≤ m)
    (hand : Closes .AND (us ++ rest)) (hor : Closes .OR (settle (us ++ rest)))
    (hset : settle (settle (us ++ rest)) = rest) (hnext : next rest = .ok (t, r))
    (ht : t.id ≠ .RIGHT) :
    ∃ msg, parseFrom source (m + 4) (keep notToken :: keep leftToken :: (pre ++ (us ++ rest))) =
      throwParse msg := by
  obtain ⟨ts, -, -, -, hp⟩ := Read.parses hread hread.plain
  have he := (hp m (us ++ rest) hm hand hor).1
  rw [hset] at he
  have hgroup : factor source (m + 1) (keep leftToken :: (pre ++ (us ++ rest))) =
      throwParse (lit "Could not find matching right parenthesis") := by
    change (exp source m (pre ++ (us ++ rest)) >>= _) = _
    rw [he]
    change (next rest >>= _) = _
    rw [hnext]
    exact if_pos ht
  refine ⟨lit "Could not find matching right parenthesis", ?_⟩
  have hnot : factor source (m + 2) (keep notToken :: keep leftToken :: (pre ++ (us ++ rest))) =
      throwParse (lit "Could not find matching right parenthesis") := by
    change (factor source (m + 1) (keep leftToken :: (pre ++ (us ++ rest))) >>= _) = _
    rw [hgroup]
    rfl
  rw [parseFrom, exp, term, hnot]
  rfl

theorem read_last {l : Level} {is : List Item} {s : Source} (h : Read l is s) :
    (∃ js, is = js ++ [keep rightToken]) ∨
      ∃ js v k, is = js ++ [.token (operandToken v) k] ∧ v ∈ s.values := by
  induction h with
  | predicate a op v ka ko kv h =>
    exact .inr ⟨[.token (operandToken a) ka, .token (operatorToken op) ko], v, kv, rfl,
      by simp [Source.values]⟩
  | not k h ih =>
    rcases ih with ⟨js, rfl⟩ | ⟨js, v, k', rfl, hv⟩
    · exact .inl ⟨_ :: js, rfl⟩
    · exact .inr ⟨_ :: js, v, k', rfl, hv⟩
  | group k h hu hlen ih => exact .inl ⟨_, rfl⟩
  | factor h ih => simpa [Source.values, Source.valuesAll] using ih
  | @and is js f fs hf h ihf ih =>
    rcases ih with ⟨ks, rfl⟩ | ⟨ks, v, k', rfl, hv⟩
    · exact .inl ⟨is ++ keep andToken :: ks, by simp⟩
    · refine .inr ⟨is ++ keep andToken :: ks, v, k', by simp, ?_⟩
      simp only [Source.values] at hv
      simp [Source.values, Source.valuesAll, hv]
  | term h ih => simpa [Source.values, Source.valuesAll] using ih
  | @or is us js t ts ht hu hlen h iht ih =>
    rcases ih with ⟨ks, rfl⟩ | ⟨ks, v, k', rfl, hv⟩
    · exact .inl ⟨is ++ us ++ keep orToken :: ks, by simp⟩
    · refine .inr ⟨is ++ us ++ keep orToken :: ks, v, k', by simp, ?_⟩
      simp only [Source.values] at hv
      simp [Source.values, Source.valuesAll, hv]

theorem closing_last {tail tail' : List Item} (h : Closing tail tail') (hne : tail ≠ []) :
    ∃ i, tail = [i] ∧ ((∃ msg, i = .bad msg) ∨ ∃ t, i = .token t false ∧
      (t = notToken ∨ t.id = .OPERATOR ∨ t = operandToken [])) := by
  cases h with
  | closed => exact absurd rfl hne
  | bad msg more => exact ⟨_, rfl, .inl ⟨msg, rfl⟩⟩
  | dangling t t' more hid ht => exact ⟨_, rfl, .inr ⟨t, rfl, ht⟩⟩

/-- The group of an expression that is not followed by `)` has no tree. -/
theorem grouped_not_ok {s : Bytes} {e' : Expression} (h' : parse (grouped s) = .ok e')
    {pre us rest r : List Item} {src : Source} {t : LexToken} (hread : Read .expression pre src)
    (hit : items (s ++ lit ")") = pre ++ (us ++ rest)) (hand : Closes .AND (us ++ rest))
    (hor : Closes .OR (settle (us ++ rest))) (hset : settle (settle (us ++ rest)) = rest)
    (hnext : next rest = .ok (t, r)) (ht : t.id ≠ .RIGHT) : False := by
  have hfuel : 3 * pre.length + 3 ≤ enough (grouped s).length - 4 := by
    have hlen := items_length (grouped s)
    rw [items_grouped, hit] at hlen
    simp only [List.length_cons, List.length_append] at hlen
    simp only [enough]
    omega
  obtain ⟨msg, hthrow⟩ := group_rejected hread hfuel hand hor hset hnext ht
  rw [parse_items, items_grouped, hit] at h'
  have hn : enough (grouped s).length - 4 + 4 = enough (grouped s).length :=
    Nat.sub_add_cancel (by simp only [enough, grouped, lit]; simp; omega)
  rw [hn, h'] at hthrow
  cases hthrow

/-- A text that is an expression and dropped items. -/
theorem grouped_whole {s : Bytes} {e' : Expression} (h' : parse (grouped s) = .ok e')
    {pre us : List Item} {src : Source} (hread : Read .expression pre src)
    (hi : items s = pre ++ us) (hu : ∀ u ∈ us, Dropped u) (hlen : us.length ≤ 2)
    (hv : [] ∉ src.values) : e' = src.tree.flip := by
  obtain ⟨init, tail, tail', hi1, hi2, hc⟩ := items_close s
  by_cases htail : tail = []
  · subst htail
    cases hc
    rw [List.append_nil] at hi1
    have hok' := parse_grouped (by rw [hi2, ← hi1, hi]) hread hu hlen
    have := h'.symm.trans hok'
    simpa using this
  · exfalso
    obtain ⟨i, rfl, hlast⟩ := closing_last hc htail
    rw [hi1] at hi
    rcases List.eq_nil_or_concat us with rfl | ⟨us', u, rfl⟩
    · -- the dangling token is the last operand of the expression
      rw [List.append_nil] at hi
      rcases read_last hread with ⟨js, hj⟩ | ⟨js, v, k, hj, hmem⟩
      · have := List.append_inj_right' (hi.trans hj) rfl
        simp only [List.cons.injEq, and_true] at this
        rcases hlast with ⟨msg, rfl⟩ | ⟨t, rfl, -⟩ <;> simp [keep] at this
      · have := List.append_inj_right' (hi.trans hj) rfl
        simp only [List.cons.injEq, and_true] at this
        rcases hlast with ⟨msg, rfl⟩ | ⟨t, rfl, ht⟩
        · simp at this
        · simp only [Item.token.injEq] at this
          obtain ⟨rfl, -⟩ := this
          rcases ht with ht | ht | ht
          · simp [notToken, operandToken] at ht
          · simp [operandToken] at ht
          · rw [show v = [] by simpa [operandToken] using ht] at hmem
            exact hv hmem
    · -- it follows the expression, and stands before the bracket
      rw [List.concat_eq_append, ← List.append_assoc] at hi
      obtain rfl := List.append_inj_left' hi rfl
      have hui : i = u := by simpa using List.append_inj_right' hi rfl
      subst hui
      cases hc with
      | bad msg more => exact (hu (.bad msg) (by simp)).elim
      | dangling t t' more hid ht =>
        obtain ⟨-, hand, hor⟩ := hu (.token t false) (by simp)
        rw [← hid] at hand hor
        have hright : t'.id ≠ .RIGHT := by
          rw [hid]
          rcases ht with rfl | ht | rfl
          · decide
          · simp [ht]
          · simp [operandToken]
        obtain ⟨h1, h2, h3⟩ := @settle_two us' (keep t' :: more) (fun u hm => hu u (by simp [hm]))
          (by simp at hlen; omega) (closes_and_keep more hand) (closes_or_keep more hor) rfl
        exact grouped_not_ok h' hread (by rw [hi2]; simp) h1 h2 h3 rfl hright

/-- In the group of a text with an item that reads as the end, the item stays. -/
theorem items_stopped {s : Bytes} {init r : List Item} {t : LexToken}
    (hi : items s = init ++ .token t false :: r) (hid : t.id = .END) :
    ∃ r', items (s ++ lit ")") = init ++ .token t false :: r' := by
  obtain ⟨pre, tail, tail', hi1, hi2, hc⟩ := items_close s
  by_cases htail : tail = []
  · subst htail
    rw [List.append_nil] at hi1
    exact ⟨r ++ tail', by rw [hi2, ← hi1, hi]; simp⟩
  · obtain ⟨i, rfl, hlast⟩ := closing_last hc htail
    rw [hi1] at hi
    rcases List.eq_nil_or_concat r with rfl | ⟨r', x, rfl⟩
    · have hit : i = .token t false := by simpa using List.append_inj_right' hi rfl
      rcases hlast with ⟨msg, rfl⟩ | ⟨t', rfl, ht⟩
      · simp at hit
      · simp only [Item.token.injEq, and_true] at hit
        subst hit
        rcases ht with rfl | ht | rfl
        · simp [notToken] at hid
        · simp [ht] at hid
        · simp [operandToken] at hid
    · rw [List.concat_eq_append, ← List.cons_append, ← List.append_assoc] at hi
      obtain rfl := List.append_inj_left' hi rfl
      exact ⟨r' ++ tail', by rw [hi2]; simp⟩

/-- Where `s` and its negated group are both accepted, the group has the negated
tree, unless `s` has an empty value. -/
theorem grouped_outcome {s : Bytes} {e e' : Expression} (h : parse s = .ok e)
    (h' : parse (grouped s) = .ok e') (hv : [] ∉ e.values) : e.Plain ∧ e' = e.flip := by
  rcases parse_outcome s with ⟨src, hacc, hok⟩ | ⟨-, msg, hthrow⟩
  · obtain rfl : e = src.tree := by
      have := h.symm.trans hok
      simpa using this
    rw [Source.values_tree] at hv
    obtain ⟨pre, us, rest, hi, hread, hu, hlen, hrest⟩ := hacc
    refine ⟨Source.tree_plain src hread.plain, ?_⟩
    rcases hrest with rfl | ⟨h2, t, r, rfl, hid⟩
    · exact grouped_whole h' hread (by simpa using hi) hu hlen hv
    · obtain ⟨r', hit⟩ := items_stopped hi hid
      match us, h2, hu with
      | [u, w], _, hu =>
        have h1 := hu u (by simp)
        have h2 := hu w (by simp)
        have hit' : items (s ++ lit ")") = pre ++ ([u, w] ++ .token t false :: r') := by
          simpa using hit
        refine (grouped_not_ok h' hread hit' (closes_dropped h1 _).1 ?_ ?_ rfl (by simp [hid])).elim
        · simpa [settle_append_dropped h1] using (closes_dropped h2 (.token t false :: r')).2
        · simp [settle_append_dropped h1, settle_append_dropped h2]
  · rw [h] at hthrow
    cases hthrow

end Netplay.GroupedText
