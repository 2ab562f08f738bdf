import Netplay.ParserSimulation

/-!
# The lexer as a list of items

`scan` is one `next_token` on the bytes that are left, and `items` the whole
list. A token whose lexing ran into the end of the input is `dangling`: the
stream has failed, so that nothing can be pushed back after it. The byte `0xFF`
is taken for the end of the input and is not pushed back either.
-/

namespace Netplay.LexerItems

open Text Lexer QueryParser Item StateRelation ParserSimulation

inductive Scanned where
  | finish : Scanned
  | token : LexToken → Bytes → Scanned
  | stop : Bytes → Scanned
  | dangling : LexToken → Scanned
  | bad : Bytes → Scanned

/-- White space is the next byte. -/
def spaceAhead : Bytes → Bool
  | c :: _ => iswspace c
  | [] => false

def scanPair (id : TokenId) (c : UInt8) (msg : Bytes) : Bytes → Scanned
  | d :: r => if d = c then .token ⟨id, [c, c]⟩ r else .bad msg
  | [] => .bad msg

def scanComparison (c : UInt8) : Bytes → Scanned
  | d :: r =>
    if d = ch '=' then .token (operatorToken [c, ch '=']) r else .token (operatorToken [c]) (d :: r)
  | [] => .dangling (operatorToken [c])

def scanBang : Bytes → Scanned
  | [] => .dangling notToken
  | c :: r =>
    if c = ch '=' then .token (operatorToken (lit "!=")) r
    else if c = ch 'i' then match r with
      | [] => .dangling notToken
      | d :: r' =>
        if d = ch 'n' && spaceAhead r' then .token (operatorToken (lit "!in")) r'
        else .token notToken (c :: r)
    else .token notToken (c :: r)

/-- The operand that starts with `c`. -/
def scanOperand (c : UInt8) (r : Bytes) : Scanned :=
  .token (operandToken (c :: r.takeWhile opvalid)) (r.dropWhile opvalid)

/-- A word that starts with `i`. -/
def scanWord : Bytes → Scanned
  | [] => .dangling (operandToken [])
  | d :: r =>
    if d = ch 'n' && spaceAhead r then .token (operatorToken (lit "in")) r
    else scanOperand (ch 'i') (d :: r)

/-- The next token of a text that does not start with white space. -/
def scanFrom : Bytes → Scanned
  | [] => .finish
  | c :: r =>
    if c = eofChar then .stop r
    else if c = ch '|' then
      scanPair .OR (ch '|') (lit "Invalid token starting with |; did you mean ||?") r
    else if c = ch '&' then
      scanPair .AND (ch '&') (lit "Invalid token starting with &; did you mean &&?") r
    else if c = ch '!' then scanBang r
    else if c = ch '(' then .token leftToken r
    else if c = ch ')' then .token rightToken r
    else if c = ch '=' then
      scanPair .OPERATOR (ch '=') (lit "Invalid token starting with =; did you mean ==?") r
    else if c = ch '<' then scanComparison (ch '<') r
    else if c = ch '>' then scanComparison (ch '>') r
    else if !opvalid c then .bad (lit "All operands must conform to [a-zA-Z0-9_.]+")
    else if c = ch 'i' then scanWord r
    else scanOperand c r

def scan (r : Bytes) : Scanned := scanFrom (r.dropWhile iswspace)

def itemsUpTo : Nat → Bytes → List Item
  | 0, _ => []
  | n + 1, r => match scan r with
    | .finish => []
    | .token t r => keep t :: itemsUpTo n r
    | .stop r => .token ⟨.END, []⟩ false :: itemsUpTo n r
    | .dangling t => [.token t false]
    | .bad msg => [.bad msg]

/-- Every item of a text. -/
def items (r : Bytes) : List Item := itemsUpTo (r.length + 1) r

/-! ## The pieces of `next_token` on a live stream -/

/-- A stream after a look at its next byte: at the end the look sets `eofbit`. -/
def looked (l r : Bytes) : Stream := ⟨l, r, r.isEmpty, false⟩

@[simp] theorem looked_cons (l r : Bytes) (c : UInt8) : looked l (c :: r) = .live l (c :: r) := rfl

@[simp] theorem unget_looked (l r : Bytes) (c : UInt8) :
    (looked (c :: l) r).unget = .live l (c :: r) := rfl

@[simp] theorem peekSpace_cons (l r : Bytes) (c : UInt8) :
    peekSpace (.live l (c :: r)) = (iswspace c, .live l (c :: r)) := rfl

@[simp] theorem peekSpace_live (l r : Bytes) :
    peekSpace (.live l r) = (spaceAhead r, looked l r) := by
  cases r <;> rfl

@[simp] theorem spaceAhead_cons (c : UInt8) (r : Bytes) : spaceAhead (c :: r) = iswspace c := rfl

@[simp] theorem operandToken_value (v : Bytes) : (operandToken v).value = v := rfl

theorem skipSpace_live (n : Nat) (l r : Bytes) (h : r.length < n) :
    skipSpace n (.live l r) =
      looked ((r.takeWhile iswspace).reverse ++ l) (r.dropWhile iswspace) := by
  induction r generalizing n l with
  | nil =>
    obtain ⟨n, rfl⟩ := Nat.exists_eq_succ_of_ne_zero (by omega : n ≠ 0)
    rfl
  | cons c r ih =>
    simp only [List.length_cons] at h
    obtain ⟨n, rfl⟩ := Nat.exists_eq_succ_of_ne_zero (by omega : n ≠ 0)
    rw [skipSpace]
    by_cases hc : iswspace c
    · simp [hc, ih n (c :: l) (by omega)]
    · simp [hc]

theorem readOperand_live (n : Nat) (l r : Bytes) (h : r.length < n) :
    readOperand n (.live l r) = (r.takeWhile opvalid,
      looked ((r.takeWhile opvalid).reverse ++ l) (r.dropWhile opvalid)) := by
  induction r generalizing n l with
  | nil =>
    obtain ⟨n, rfl⟩ := Nat.exists_eq_succ_of_ne_zero (by omega : n ≠ 0)
    rfl
  | cons c r ih =>
    simp only [List.length_cons] at h
    obtain ⟨n, rfl⟩ := Nat.exists_eq_succ_of_ne_zero (by omega : n ≠ 0)
    rw [readOperand]
    by_cases hc : opvalid c
    · simp [hc, ih n (c :: l) (by omega)]
    · simp [hc]

/-- What `next_token` returns for each outcome of `scan`, and the stream it leaves. -/
def Yields (l : Bytes) : Scanned → Except Fault (LexToken × Stream) → Prop
  | .finish, x => ∃ s, x = .ok (⟨.END, []⟩, s) ∧ s.failbit = true
  | .token t r, x => x = .ok (t, looked (t.value.reverse ++ l) r) ∨
      x = .ok (t, .live (t.value.reverse ++ l) r)
  | .stop r, x => ∃ c, x = .ok (⟨.END, []⟩, .live (c :: l) r)
  | .dangling t, x => ∃ s, x = .ok (t, s) ∧ s.failbit = true
  | .bad msg, x => x = throwParse msg

theorem yields_ite {l : Bytes} {p : Prop} [Decidable p] {a b : Scanned}
    {x y : Except Fault (LexToken × Stream)} (h : p → Yields l a x) (h' : ¬p → Yields l b y) :
    Yields l (if p then a else b) (if p then x else y) := by
  by_cases hp : p
  · simpa [hp] using h hp
  · simpa [hp] using h' hp

theorem pair_yields (id : TokenId) (c : UInt8) (msg l r : Bytes) :
    Yields l (scanPair id c msg r) (pair id c msg (.live (c :: l) r)) := by
  match r with
  | [] => simp [scanPair, pair, Yields]
  | d :: r =>
    by_cases hd : d = c
    · simp [scanPair, pair, Yields, hd]
    · simp [scanPair, pair, Yields, hd]

theorem comparison_yields (c : UInt8) (l r : Bytes) :
    Yields l (scanComparison c r) (.ok (comparison c (.live (c :: l) r))) := by
  match r with
  | [] =>
    have h : ¬ (none : Option UInt8) = some (ch '=') := by simp
    simp [scanComparison, comparison, Yields, operatorToken, h, Stream.dead]
  | d :: r =>
    by_cases hd : d = ch '='
    · simp [scanComparison, comparison, Yields, operatorToken, hd]
    · simp [scanComparison, comparison, Yields, operatorToken, hd]

theorem operand_yields (c : UInt8) (l r : Bytes) (hc : opvalid c = true) :
    operand (.live (c :: l) r) = (operandToken (c :: r.takeWhile opvalid),
      looked ((c :: r.takeWhile opvalid).reverse ++ l) (r.dropWhile opvalid)) := by
  simp only [operand, Stream.unget_live]
  rw [readOperand_live _ l (c :: r) (by simp [Stream.live])]
  simp [hc, operandToken]

theorem word_yields (l r : Bytes) :
    Yields l (scanWord r) (.ok (word (.live (ch 'i' :: l) r))) := by
  have hi : opvalid (ch 'i') = true := by decide
  match r with
  | [] =>
    simp [scanWord, word, Yields, operandToken, operand, Stream.dead, readOperand, Stream.unget,
      Stream.peek]
  | d :: r =>
    have hop := operand_yields (ch 'i') l (d :: r) hi
    by_cases hd : d = ch 'n'
    · by_cases hs : spaceAhead r
      · simp [scanWord, word, Yields, hd, hs, operatorToken, lit]
      · subst hd
        simp [scanWord, word, Yields, hs, scanOperand, hop]
    · simp [scanWord, word, Yields, hd, scanOperand, hop]

theorem bang_yields (l r : Bytes) :
    Yields l (scanBang r) (.ok (bang (.live (ch '!' :: l) r))) := by
  have he : ¬ eofChar = ch '=' := by decide
  have hi : ¬ eofChar = ch 'i' := by decide
  have hne : ¬ ch 'i' = ch '=' := by decide
  match r with
  | [] => simp [scanBang, bang, Yields, getChar, he, hi, notToken, Stream.dead, Stream.unget]
  | c :: r =>
    by_cases h1 : c = ch '='
    · simp [scanBang, bang, Yields, getChar, h1, operatorToken, lit]
    · by_cases h2 : c = ch 'i'
      · subst h2
        match r with
        | [] => simp [scanBang, bang, Yields, getChar, hne, notToken, Stream.dead, Stream.unget]
        | d :: r =>
          by_cases h3 : d = ch 'n'
          · by_cases hs : spaceAhead r
            · simp [scanBang, bang, Yields, getChar, hne, h3, hs, operatorToken, lit]
            · simp [scanBang, bang, Yields, getChar, hne, h3, hs, notToken, lit]
          · simp [scanBang, bang, Yields, getChar, hne, h3, notToken, lit]
      · simp [scanBang, bang, Yields, getChar, h1, h2, notToken, lit]

/-- One `next_token` on a live stream is one `scan`. -/
theorem nextToken_yields (l r : Bytes) :
    Yields ((r.takeWhile iswspace).reverse ++ l) (scan r) (nextToken (.live l r)) := by
  have hskip := skipSpace_live (r.length + 1) l r (by omega)
  simp only [nextToken, scan, Stream.live_rest, hskip]
  generalize (r.takeWhile iswspace).reverse ++ l = l'
  generalize r.dropWhile iswspace = r
  match r with
  | [] => simp [scanFrom, Yields, looked, getChar, Stream.dead]
  | c :: r =>
    simp only [looked_cons, getChar, Stream.get_cons, Option.getD_some, scanFrom]
    refine yields_ite (fun _ => ⟨c, rfl⟩) fun _ => yields_ite (fun h => ?_) fun _ =>
      yields_ite (fun h => ?_) fun _ => yields_ite (fun h => ?_) fun _ =>
      yields_ite (fun h => ?_) fun _ => yields_ite (fun h => ?_) fun _ =>
      yields_ite (fun h => ?_) fun _ => yields_ite (fun h => ?_) fun _ =>
      yields_ite (fun h => ?_) fun _ => yields_ite (fun _ => rfl) fun hv =>
      yields_ite (fun h => ?_) fun _ => ?_
    · exact h ▸ pair_yields _ _ _ _ _
    · exact h ▸ pair_yields _ _ _ _ _
    · exact h ▸ bang_yields _ _
    · exact h ▸ .inr rfl
    · exact h ▸ .inr rfl
    · exact h ▸ pair_yields _ _ _ _ _
    · exact h ▸ comparison_yields _ _ _
    · exact h ▸ comparison_yields _ _ _
    · exact h ▸ word_yields _ _
    · exact .inl (congrArg Except.ok (operand_yields c l' r (by simpa using hv)))

/-! ## The list of items -/

/-- What `scan` takes off a text: the characters of the token it returns. -/
def Takes (r : Bytes) : Scanned → Prop
  | .token t r' => r = t.value ++ r' ∧ t.value ≠ [] ∧ Proper (keep t)
  | .stop r' => ∃ c, r = c :: r'
  | .dangling t => Proper (.token t false) ∧ r ≠ []
  | .bad _ => r ≠ []
  | .finish => True

theorem takes_ite {r : Bytes} {p : Prop} [Decidable p] {a b : Scanned} (h : p → Takes r a)
    (h' : ¬p → Takes r b) : Takes r (if p then a else b) := by
  by_cases hp : p
  · simpa [hp] using h hp
  · simpa [hp] using h' hp

theorem pair_takes (id : TokenId) (c : UInt8) (msg r : Bytes) (h : Proper (keep ⟨id, [c, c]⟩)) :
    Takes (c :: r) (scanPair id c msg r) := by
  match r with
  | [] => simp [scanPair, Takes]
  | d :: r => exact takes_ite (fun hd => by simp [Takes, hd, h]) fun _ => by simp [Takes]

theorem comparison_takes (c : UInt8) (r : Bytes) (h : [c] ∈ Expression.operators)
    (h' : [c, ch '='] ∈ Expression.operators) : Takes (c :: r) (scanComparison c r) := by
  match r with
  | [] => exact ⟨h, by simp⟩
  | d :: r =>
    exact takes_ite (fun hd => ⟨by simp [operatorToken, hd], by simp [operatorToken], h'⟩)
      fun _ => ⟨rfl, by simp [operatorToken], h⟩

theorem proper_operator {v : Bytes} (h : v ∈ Expression.operators) (k : Bool) :
    Proper (.token (operatorToken v) k) := h

theorem bang_takes (r : Bytes) : Takes (ch '!' :: r) (scanBang r) := by
  have hnot : ∀ r, Takes (ch '!' :: r) (.token notToken r) := fun r => ⟨rfl, by decide, rfl⟩
  match r with
  | [] => exact ⟨rfl, by simp⟩
  | c :: r =>
    refine takes_ite (fun h => ⟨by simp [h, operatorToken, lit], by decide,
        proper_operator (by decide) _⟩) fun _ =>
      takes_ite (fun h => ?_) fun _ => hnot _
    match r with
    | [] => exact ⟨rfl, by simp⟩
    | d :: r =>
      refine takes_ite (fun h' => ⟨?_, by decide, proper_operator (by decide) _⟩) fun _ => hnot _
      simp only [Bool.and_eq_true, decide_eq_true_eq] at h'
      simp [h, h'.1, operatorToken, lit]

theorem operand_takes (c : UInt8) (r : Bytes) : Takes (c :: r) (scanOperand c r) :=
  ⟨by simp [List.takeWhile_append_dropWhile], by simp, trivial⟩

theorem word_takes (r : Bytes) : Takes (ch 'i' :: r) (scanWord r) := by
  match r with
  | [] => exact ⟨trivial, by simp⟩
  | d :: r =>
    refine takes_ite (fun h => ⟨?_, by decide, proper_operator (by decide) _⟩) fun _ => operand_takes _ _
    simp only [Bool.and_eq_true, decide_eq_true_eq] at h
    simp [h.1, operatorToken, lit]

theorem scanFrom_takes (r : Bytes) : Takes r (scanFrom r) := by
  match r with
  | [] => trivial
  | c :: r =>
    refine takes_ite (fun _ => ⟨c, rfl⟩) fun _ => takes_ite (fun h => ?_) fun _ =>
      takes_ite (fun h => ?_) fun _ => takes_ite (fun h => ?_) fun _ =>
      takes_ite (fun h => ?_) fun _ => takes_ite (fun h => ?_) fun _ =>
      takes_ite (fun h => ?_) fun _ => takes_ite (fun h => ?_) fun _ =>
      takes_ite (fun h => ?_) fun _ => takes_ite (fun _ => by simp [Takes]) fun _ =>
      takes_ite (fun h => ?_) fun _ => operand_takes c r
    all_goals subst h
    · exact pair_takes _ _ _ _ ⟨rfl, rfl⟩
    · exact pair_takes _ _ _ _ ⟨rfl, rfl⟩
    · exact bang_takes r
    · exact ⟨rfl, by decide, rfl⟩
    · exact ⟨rfl, by decide, rfl, rfl⟩
    · exact pair_takes _ _ _ _ (proper_operator (by decide) _)
    · exact comparison_takes _ _ (by decide) (by decide)
    · exact comparison_takes _ _ (by decide) (by decide)
    · exact word_takes r

theorem scan_takes (r : Bytes) : Takes (r.dropWhile iswspace) (scan r) := scanFrom_takes _

/-- Putting a token back leaves the text that starts at the token. -/
theorem scan_dropWhile (r : Bytes) : scan (r.dropWhile iswspace) = scan r := by
  rw [scan, scan]
  congr 1
  induction r with
  | nil => rfl
  | cons c r ih => by_cases hc : iswspace c <;> simp [hc, ih]

theorem dropWhile_length (p : UInt8 → Bool) (r : Bytes) : (r.dropWhile p).length ≤ r.length :=
  (List.dropWhile_sublist p).length_le

theorem scan_token_length {r r' : Bytes} {t : LexToken} (h : scan r = .token t r') :
    r'.length < r.length := by
  have ht := scan_takes r
  rw [h] at ht
  obtain ⟨he, hne, -⟩ := ht
  have := dropWhile_length iswspace r
  have := congrArg List.length he
  have := List.length_pos_of_ne_nil hne
  simp only [List.length_append] at *
  omega

theorem scan_stop_length {r r' : Bytes} (h : scan r = .stop r') : r'.length < r.length := by
  have ht := scan_takes r
  rw [h] at ht
  obtain ⟨c, he⟩ := ht
  have := dropWhile_length iswspace r
  have := congrArg List.length he
  simp only [List.length_cons] at *
  omega

/-- A round for each byte, and one more, reads the whole text. -/
theorem itemsUpTo_eq (n : Nat) (r : Bytes) (h : r.length < n) : itemsUpTo n r = items r := by
  suffices ∀ m n, r.length < m → r.length < n → itemsUpTo m r = itemsUpTo n r from
    this n _ h (by omega)
  intro m
  induction m generalizing r with
  | zero => intro n hm; omega
  | succ m ih =>
    intro n hm hn
    obtain ⟨n, rfl⟩ := Nat.exists_eq_succ_of_ne_zero (by omega : n ≠ 0)
    rw [itemsUpTo, itemsUpTo]
    cases hs : scan r with
    | finish => rfl
    | token t r' =>
      have := scan_token_length hs
      exact congrArg _ (ih r' (by omega) n (by omega) (by omega))
    | stop r' =>
      have := scan_stop_length hs
      exact congrArg _ (ih r' (by omega) n (by omega) (by omega))
    | dangling t => rfl
    | bad msg => rfl

/-- `items` without the bound. -/
theorem items_eq (r : Bytes) : items r = match scan r with
    | .finish => []
    | .token t r' => keep t :: items r'
    | .stop r' => .token ⟨.END, []⟩ false :: items r'
    | .dangling t => [.token t false]
    | .bad msg => [.bad msg] := by
  rw [items, itemsUpTo]
  cases hs : scan r with
  | finish => rfl
  | token t r' => exact congrArg _ (itemsUpTo_eq _ r' (scan_token_length hs))
  | stop r' => exact congrArg _ (itemsUpTo_eq _ r' (scan_stop_length hs))
  | dangling t => rfl
  | bad msg => rfl

theorem items_dropWhile (r : Bytes) : items (r.dropWhile iswspace) = items r := by
  rw [items_eq, items_eq r, scan_dropWhile]

theorem items_proper (r : Bytes) : ∀ i ∈ items r, Proper i := by
  induction hn : r.length using Nat.strongRecOn generalizing r with
  | _ n ih =>
    subst hn
    have ht := scan_takes r
    rw [items_eq]
    intro i hi
    cases hs : scan r with
    | finish => simp [hs] at hi
    | token t r' =>
      simp only [hs, List.mem_cons] at hi ht
      rcases hi with rfl | hi
      · exact ht.2.2
      · exact ih _ (scan_token_length hs) r' rfl i hi
    | stop r' =>
      simp only [hs, List.mem_cons] at hi
      rcases hi with rfl | hi
      · rfl
      · exact ih _ (scan_stop_length hs) r' rfl i hi
    | dangling t =>
      simp only [hs, List.mem_singleton] at hi ht
      exact hi ▸ ht.1
    | bad msg =>
      simp only [hs, List.mem_singleton] at hi
      exact hi ▸ trivial

theorem items_length (r : Bytes) : (items r).length ≤ r.length := by
  induction hn : r.length using Nat.strongRecOn generalizing r with
  | _ n ih =>
    subst hn
    have ht := scan_takes r
    have hd := dropWhile_length iswspace r
    rw [items_eq]
    cases hs : scan r with
    | finish => simp
    | token t r' =>
      have := scan_token_length hs
      have := ih _ this r' rfl
      simp only [List.length_cons]
      omega
    | stop r' =>
      have := scan_stop_length hs
      have := ih _ this r' rfl
      simp only [List.length_cons]
      omega
    | dangling t =>
      rw [hs] at ht
      have := List.length_pos_of_ne_nil ht.2
      simp only [List.length_singleton]
      omega
    | bad msg =>
      rw [hs] at ht
      have := List.length_pos_of_ne_nil ht
      simp only [List.length_singleton]
      omega

/-! ## The stream and the list of items simulate each other -/

/-- A stream that has not failed stands for the items of the bytes ahead; a
failed one for none. -/
def Stands (s : Stream) (is : List Item) : Prop :=
  (∃ l r, (s = .live l r ∨ s = looked l r) ∧ is = items r) ∨ (s.failbit = true ∧ is = [])

theorem nextToken_failed (s : Stream) (h : s.failbit = true) :
    nextToken s = .ok (⟨.END, []⟩, s) := by
  obtain ⟨l, r, eof, fail⟩ := s
  cases h
  simp [nextToken, skipSpace, peekSpace, Stream.peek, getChar, Stream.get]

theorem nextToken_looked_nil (l : Bytes) :
    nextToken (looked l []) = .ok (⟨.END, []⟩, .dead l) := rfl

@[simp] theorem items_nil : items [] = [] := rfl

theorem putBack_live (v l r : Bytes) :
    putBack v.length (.live (v.reverse ++ l) r) = .live l (v ++ r) := by
  obtain ⟨w, rfl⟩ : ∃ w, v = w.reverse := ⟨v.reverse, by simp⟩
  induction w generalizing r with
  | nil => rfl
  | cons c w ih =>
    have := ih (c :: r)
    simp only [List.length_reverse, List.reverse_reverse] at this
    simp [putBack, this]

theorem putBack_looked (v l r : Bytes) (h : v ≠ []) :
    putBack v.length (looked (v.reverse ++ l) r) = .live l (v ++ r) := by
  obtain ⟨v, c, rfl⟩ := (List.eq_nil_or_concat v).resolve_left h
  have := putBack_live v l (c :: r)
  simp [putBack, this]

theorem putBack_failed (n : Nat) (s : Stream) (h : s.failbit = true) : putBack n s = s := by
  induction n generalizing s with
  | zero => rfl
  | succ n ih =>
    obtain ⟨l, r, eof, fail⟩ := s
    cases h
    exact ih _ rfl

/-- `next_token` and the head of the list, from related states. -/
theorem next_related (s : Stream) (is : List Item) (h : Stands s is) :
    Related Stands (nextToken s) (next is) ∧ Related Stands (peekToken s) (peek is) := by
  rcases h with ⟨l, r, hs, rfl⟩ | ⟨hs, rfl⟩
  · have hlive : s = .live l r ∨ r = [] ∧ s = looked l [] := by
      rcases hs with rfl | rfl
      · exact .inl rfl
      · cases r with
        | nil => exact .inr ⟨rfl, rfl⟩
        | cons c r => exact .inl rfl
    rcases hlive with rfl | ⟨rfl, rfl⟩
    · have hy := nextToken_yields l r
      have ht := scan_takes r
      generalize (r.takeWhile iswspace).reverse ++ l = l' at hy
      rw [items_eq]
      cases hsc : scan r with
      | finish =>
        rw [hsc] at hy
        obtain ⟨s', hok, hf⟩ := hy
        rw [peekToken, hok]
        exact ⟨⟨rfl, .inr ⟨hf, rfl⟩⟩, rfl, .inr ⟨hf, rfl⟩⟩
      | token t r' =>
        rw [hsc] at hy ht
        obtain ⟨he, hne, -⟩ := ht
        have hback : items r = keep t :: items r' := by rw [items_eq, hsc]
        rcases hy with hok | hok
        · rw [peekToken, hok]
          refine ⟨⟨rfl, .inl ⟨_, _, .inr rfl, rfl⟩⟩, rfl, ?_⟩
          rw [putBack_looked _ _ _ hne, ← he]
          exact .inl ⟨_, _, .inl rfl, by rw [items_dropWhile, hback]; rfl⟩
        · rw [peekToken, hok]
          refine ⟨⟨rfl, .inl ⟨_, _, .inl rfl, rfl⟩⟩, rfl, ?_⟩
          rw [putBack_live, ← he]
          exact .inl ⟨_, _, .inl rfl, by rw [items_dropWhile, hback]; rfl⟩
      | stop r' =>
        rw [hsc] at hy
        obtain ⟨c, hok⟩ := hy
        rw [peekToken, hok]
        exact ⟨⟨rfl, .inl ⟨_, _, .inl rfl, rfl⟩⟩, rfl, .inl ⟨_, _, .inl rfl, rfl⟩⟩
      | dangling t =>
        rw [hsc] at hy
        obtain ⟨s', hok, hf⟩ := hy
        rw [peekToken, hok]
        refine ⟨⟨rfl, .inr ⟨hf, rfl⟩⟩, rfl, ?_⟩
        rw [putBack_failed _ _ hf]
        exact .inr ⟨hf, rfl⟩
      | bad msg =>
        rw [hsc] at hy
        rw [peekToken, (hy : nextToken _ = _)]
        exact ⟨rfl, rfl⟩
    · rw [peekToken, nextToken_looked_nil]
      exact ⟨⟨rfl, .inr ⟨rfl, rfl⟩⟩, rfl, .inr ⟨rfl, rfl⟩⟩
  · rw [peekToken, nextToken_failed s hs]
    exact ⟨⟨rfl, .inr ⟨hs, rfl⟩⟩, rfl, .inr ⟨hs, rfl⟩⟩

theorem simulates : Simulates lex source Stands :=
  ⟨fun s is h => (next_related s is h).1, fun s is h => (next_related s is h).2⟩

/-- Parsing a text is parsing its list of items. -/
theorem parse_items (text : Bytes) :
    parse text = parseFrom source (enough text.length) (items text) :=
  parseFrom_eq simulates _ _ _ (.inl ⟨[], text, .inl rfl, rfl⟩)

/-- The parser's outcome on a text, exactly. -/
theorem parse_outcome (text : Bytes) :
    (∃ s, ParserItems.Accepted (items text) s ∧ parse text = .ok s.tree) ∨
      (¬ ∃ s, ParserItems.Accepted (items text) s) ∧ ∃ msg, parse text = throwParse msg := by
  rw [parse_items]
  refine ParserItems.parseFrom_items _ (items_proper text) _ ?_
  have := items_length text
  simp only [enough]
  omega

end Netplay.LexerItems
