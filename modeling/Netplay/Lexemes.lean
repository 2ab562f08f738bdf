import Mathlib.Data.List.TakeWhile
import Netplay.LexerItems

/-!
# The documented language

`Lexed` cuts a text into the documented lexemes by longest match, with white
space between them. The lexer finds the same lexemes, except at the byte `0xFF`
and where the text ends in `!`, `<`, `>` or in an `i` that is a word by itself:
there the read past the end fails the stream before the character is pushed
back.
-/

namespace Netplay.Lexemes

open Text Lexer QueryParser Item LexerItems

/-- No word goes on here. -/
def WordEnds (r : Bytes) : Prop := ∀ d ∈ r.head?, opvalid d = false

/-- `t` is a lexeme of the language, and the longest one that starts where it does when `r`
follows it: no word is divided, and every word is an operand, the word `in` too. -/
inductive Lexeme : LexToken → Bytes → Prop where
  | or (r : Bytes) : Lexeme orToken r
  | and (r : Bytes) : Lexeme andToken r
  | left (r : Bytes) : Lexeme leftToken r
  | right (r : Bytes) : Lexeme rightToken r
  | equality (c : UInt8) (r : Bytes) (hc : c ∈ lit "=!<>") : Lexeme (operatorToken [c, ch '=']) r
  | strict (c : UInt8) (r : Bytes) (hc : c ∈ lit "<>") (hr : r.head? ≠ some (ch '=')) :
      Lexeme (operatorToken [c]) r
  | not (r : Bytes) (hr : r.head? ≠ some (ch '=')) : Lexeme notToken r
  | member (r : Bytes) (hr : WordEnds r) : Lexeme (operatorToken (lit "in")) r
  | notMember (r : Bytes) (hr : WordEnds r) : Lexeme (operatorToken (lit "!in")) r
  | operand (c : UInt8) (v r : Bytes) (hv : ∀ d ∈ c :: v, opvalid d = true)
      (hr : WordEnds r) : Lexeme (operandToken (c :: v)) r

/-- The text is a sequence of the lexemes `L`, each with what follows it, with white space
around them. -/
inductive Spelled (L : LexToken → Bytes → Prop) : Bytes → List LexToken → Prop where
  | done {sp : Bytes} (hsp : ∀ c ∈ sp, iswspace c = true) : Spelled L sp []
  | lexeme {sp r : Bytes} {t : LexToken} {ts : List LexToken} (hsp : ∀ c ∈ sp, iswspace c = true)
      (ht : L t r) (h : Spelled L r ts) : Spelled L (sp ++ (t.value ++ r)) (t :: ts)

theorem Spelled.mono {L L' : LexToken → Bytes → Prop} (hL : ∀ t r, L t r → L' t r) {s : Bytes}
    {ts : List LexToken} (h : Spelled L s ts) : Spelled L' s ts := by
  induction h with
  | done hsp => exact .done hsp
  | lexeme hsp ht h ih => exact .lexeme hsp (hL _ _ ht) ih

/-- The text is a sequence of lexemes of the language. -/
abbrev Lexed : Bytes → List LexToken → Prop := Spelled Lexeme

/-- A lexeme that is no operand `in` with white space behind it. -/
def Evident (t : LexToken) (r : Bytes) : Prop :=
  Lexeme t r ∧ ¬ (t = operandToken (lit "in") ∧ spaceAhead r = true)

/-- Without an operand `in` the lexemes are evident. -/
theorem evident_of_lexed {s : Bytes} {ts : List LexToken} (h : Lexed s ts)
    (hin : operandToken (lit "in") ∉ ts) : Spelled Evident s ts := by
  induction h with
  | done hsp => exact .done hsp
  | lexeme hsp ht h ih =>
    refine .lexeme hsp ⟨ht, fun hbehind => hin ?_⟩ (ih fun hmem => hin (List.mem_cons_of_mem _ hmem))
    rw [hbehind.1]
    exact List.mem_cons_self

/-! ## Strays between the lexemes -/

/-- White space and `n` bytes `0xFF`. -/
inductive Strays : Nat → Bytes → Prop where
  | none : Strays 0 []
  | byte {n : Nat} {sp s : Bytes} (hsp : ∀ c ∈ sp, iswspace c = true) (h : Strays n s) :
      Strays (n + 1) (sp ++ eofChar :: s)

/-- As many strays in front of `t` as the lookaheads for `&&` and `||` pass there. -/
def Passed (n : Nat) (t : LexToken) : Prop :=
  n = 0 ∨ n ≤ 1 ∧ t = orToken ∨ n ≤ 2 ∧ t = rightToken

/-- The strays at the end of a text. -/
def lastStrays : List Bytes := [lit "!", lit "<", lit ">", lit "i", lit "!i"]

/-- What the end of an expression may have behind it: two strays, the second of which may also be
one that ends the text, and anything from a third byte `0xFF` on. -/
inductive Trail : Bytes → Prop where
  | strays {n : Nat} {s sp : Bytes} (h : Strays n s) (hn : n ≤ 2)
      (hsp : ∀ c ∈ sp, iswspace c = true) : Trail (s ++ sp)
  | last {n : Nat} {s sp e : Bytes} (h : Strays n s) (hn : n ≤ 1)
      (hsp : ∀ c ∈ sp, iswspace c = true) (he : e ∈ lastStrays) : Trail (s ++ (sp ++ e))
  | stopped {s sp : Bytes} (h : Strays 2 s) (hsp : ∀ c ∈ sp, iswspace c = true) (r : Bytes) :
      Trail (s ++ (sp ++ eofChar :: r))

/-- The text is a sequence of the lexemes `L` with white space around them, and with strays. -/
inductive Strewn (L : LexToken → Bytes → Prop) : Bytes → List LexToken → Prop where
  | done {s : Bytes} (hs : Trail s) : Strewn L s []
  | lexeme {n : Nat} {s sp r : Bytes} {t : LexToken} {ts : List LexToken} (hs : Strays n s)
      (hn : Passed n t) (hsp : ∀ c ∈ sp, iswspace c = true) (ht : L t r) (h : Strewn L r ts) :
      Strewn L (s ++ (sp ++ (t.value ++ r))) (t :: ts)

theorem Strewn.mono {L L' : LexToken → Bytes → Prop} (hL : ∀ t r, L t r → L' t r) {s : Bytes}
    {ts : List LexToken} (h : Strewn L s ts) : Strewn L' s ts := by
  induction h with
  | done hs => exact .done hs
  | lexeme hs hn hsp ht h ih => exact .lexeme hs hn hsp (hL _ _ ht) ih

theorem Spelled.strewn {L : LexToken → Bytes → Prop} {s : Bytes} {ts : List LexToken}
    (h : Spelled L s ts) : Strewn L s ts := by
  induction h with
  | done hsp => exact .done (.strays .none (Nat.zero_le 2) hsp)
  | lexeme hsp ht h ih => exact .lexeme .none (.inl rfl) hsp ht ih

/-! ## The lexemes of the lexer -/

/-- The word `in` and white space after it. -/
def inAhead : Bytes → Bool
  | c :: d :: r => c = ch 'i' && d = ch 'n' && spaceAhead r
  | _ => false

/-- `t` is what the lexer takes in front of `r`: the words `in` and `!in` are operators where
white space follows, and nowhere else. -/
inductive Taken : LexToken → Bytes → Prop where
  | or (r : Bytes) : Taken orToken r
  | and (r : Bytes) : Taken andToken r
  | left (r : Bytes) : Taken leftToken r
  | right (r : Bytes) : Taken rightToken r
  | equality (c : UInt8) (r : Bytes) (hc : c ∈ lit "=!<>") : Taken (operatorToken [c, ch '=']) r
  | strict (c : UInt8) (r : Bytes) (hc : c ∈ lit "<>") (hr : r.head? ≠ some (ch '=')) :
      Taken (operatorToken [c]) r
  | not (r : Bytes) (hr : r.head? ≠ some (ch '=')) (hin : inAhead r = false) : Taken notToken r
  | member (r : Bytes) (hr : spaceAhead r = true) : Taken (operatorToken (lit "in")) r
  | notMember (r : Bytes) (hr : spaceAhead r = true) : Taken (operatorToken (lit "!in")) r
  | operand (c : UInt8) (v r : Bytes) (hv : ∀ d ∈ c :: v, opvalid d = true)
      (hr : WordEnds r) (hin : inAhead (c :: v ++ r) = false) :
      Taken (operandToken (c :: v)) r

theorem space_not_opvalid {c : UInt8} (h : iswspace c = true) : opvalid c = false := by
  simp only [iswspace, Bool.or_eq_true, beq_iff_eq, Bool.and_eq_true, decide_eq_true_eq] at h
  rcases h with rfl | ⟨h, h'⟩
  · decide
  · have hc : c.toNat = 9 ∨ c.toNat = 10 ∨ c.toNat = 11 ∨ c.toNat = 12 ∨ c.toNat = 13 := by
      have : 9 ≤ c.toNat := h
      have : c.toNat ≤ 13 := h'
      omega
    have hof : c = UInt8.ofNat c.toNat := by simp
    rcases hc with hc | hc | hc | hc | hc <;> rw [hof, hc] <;> decide

theorem spaceAhead_ends {r : Bytes} (h : spaceAhead r = true) : WordEnds r := by
  intro d hd
  cases r with
  | nil => cases hd
  | cons c r =>
    obtain rfl := Option.some.inj hd
    exact space_not_opvalid h

theorem Taken.lexeme {t : LexToken} {r : Bytes} (h : Taken t r) : Lexeme t r := by
  cases h with
  | or => exact .or r
  | and => exact .and r
  | left => exact .left r
  | right => exact .right r
  | equality c _ hc => exact .equality c r hc
  | strict c _ hc hr => exact .strict c r hc hr
  | not _ hr hin => exact .not r hr
  | member _ hr => exact .member r (spaceAhead_ends hr)
  | notMember _ hr => exact .notMember r (spaceAhead_ends hr)
  | operand c v _ hv hr hin => exact .operand c v r hv hr

/-- What the lexer takes is evident: it takes no `in` with white space behind it for an operand. -/
theorem Taken.evident {t : LexToken} {r : Bytes} (h : Taken t r) : Evident t r := by
  refine ⟨h.lexeme, ?_⟩
  rintro ⟨ht, hr⟩
  cases h with
  | operand c v _ hv hword hin =>
    have hv : c :: v = lit "in" := congrArg LexToken.value ht
    rw [hv] at hin
    exact absurd hin (by simp [inAhead, lit, ch, hr])
  | _ => cases congrArg LexToken.id ht

/-- The text, read backwards, ends in `!`, `<`, `>` or in the one-letter word `i`. -/
def cutBack : Bytes → Bool
  | c :: p => c ∈ lit "!<>" || c = ch 'i' && !(p.head?.any opvalid)
  | [] => false

/-- The text ends where a lookahead for more reads past the end. -/
def cut (s : Bytes) : Bool := cutBack s.reverse

/-- No byte of the text reads as the end, and no lookahead reads past its end. -/
def Clean (s : Bytes) : Prop := eofChar ∉ s ∧ cut s = false

instance (s : Bytes) : Decidable (Clean s) := inferInstanceAs (Decidable (_ ∧ _))

@[simp] theorem cut_nil : cut [] = false := rfl

theorem cut_snoc (p : Bytes) (c : UInt8) :
    cut (p ++ [c]) = (c ∈ lit "!<>" || c = ch 'i' && !(p.getLast?.any opvalid)) := by
  simp [cut, cutBack]

/-- Only the end of a text decides whether it is cut. -/
theorem cut_append (p r : Bytes) (hr : r ≠ [])
    (hi : r.head? = some (ch 'i') → ∀ c ∈ p.getLast?, opvalid c = false) :
    cut (p ++ r) = cut r := by
  obtain ⟨q, c, rfl⟩ := (List.eq_nil_or_concat r).resolve_left hr
  rw [List.concat_eq_append, ← List.append_assoc, cut_snoc, cut_snoc]
  cases q with
  | cons d q => simp [List.getLast?_eq_some_getLast]
  | nil =>
    by_cases hc : c = ch 'i'
    · have := hi (by simp [hc])
      cases hp : p.getLast? with
      | none => simp [hp]
      | some d => simp [hp, this d (by simp [hp])]
    · simp [hc]

theorem eofChar_not_opvalid : opvalid eofChar = false := by decide

/-- An `i` that follows a lexeme starts a word. -/
theorem last_not_opvalid {s : Bytes} {c : UInt8} (h : s.getLast? = some c)
    (hc : opvalid c = false) : ∀ d ∈ s.getLast?, opvalid d = false := by
  intro d hd
  cases h.symm.trans hd
  exact hc

theorem lexeme_last {t : LexToken} {r : Bytes} (h : Lexeme t r) (hi : r.head? = some (ch 'i')) :
    ∀ c ∈ t.value.getLast?, opvalid c = false := by
  have hword : WordEnds r → False := fun hr => absurd (hr _ hi) (by decide)
  cases h with
  | or | and | left | right => exact last_not_opvalid rfl (by decide)
  | equality c _ hc =>
    have hlast : opvalid (ch '=') = false := by decide
    exact last_not_opvalid rfl hlast
  | strict c _ hc hr =>
    refine last_not_opvalid rfl ?_
    rcases List.mem_cons.mp hc with rfl | hc
    · decide
    · obtain rfl := List.mem_singleton.mp hc
      decide
  | not _ hr => exact last_not_opvalid rfl (by decide)
  | member _ hr => exact (hword hr).elim
  | notMember _ hr => exact (hword hr).elim
  | operand c v _ hv hr => exact (hword hr).elim

theorem cut_after {t : LexToken} {r : Bytes} (h : Lexeme t r) (hr : r ≠ []) :
    cut (t.value ++ r) = cut r := cut_append _ _ hr (lexeme_last h)

theorem cut_space {sp : Bytes} (r : Bytes) (hsp : ∀ c ∈ sp, iswspace c = true) :
    cut (sp ++ r) = cut r := by
  by_cases hr : r = []
  · subst hr
    rcases List.eq_nil_or_concat sp with rfl | ⟨p, c, rfl⟩
    · rfl
    · have hc := hsp c (by simp)
      rw [List.append_nil, List.concat_eq_append, cut_snoc]
      have hne : ∀ d, iswspace d = false → c ≠ d := fun d hd he => by simp [he, hd] at hc
      simp [lit, hne (ch '!') rfl, hne (ch '<') rfl, hne (ch '>') rfl, hne (ch 'i') rfl]
  · refine cut_append _ _ hr fun _ c hc => space_not_opvalid (hsp c ?_)
    exact List.mem_of_getLast? hc

/-! ## The lexer finds the lexemes -/

/-- What an outcome of `scan` says about the text in terms of lexemes. -/
def Spells (r : Bytes) : Scanned → Prop
  | .finish => r = []
  | .token t r' => r = t.value ++ r' ∧ Taken t r'
  | .stop r' => r = eofChar :: r'
  | .dangling t => r ∈ lastStrays ∧
      (t = notToken ∨ t.id = .OPERATOR ∨ t = operandToken [] ∧ r = [ch 'i'])
  | .bad _ => True

theorem spells_ite {r : Bytes} {p : Prop} [Decidable p] {a b : Scanned} (h : p → Spells r a)
    (h' : ¬p → Spells r b) : Spells r (if p then a else b) := by
  by_cases hp : p
  · simpa [hp] using h hp
  · simpa [hp] using h' hp

theorem pair_spells (id : TokenId) (c : UInt8) (msg r : Bytes)
    (h : ∀ r, Taken ⟨id, [c, c]⟩ r) : Spells (c :: r) (scanPair id c msg r) := by
  match r with
  | [] => trivial
  | d :: r => exact spells_ite (fun hd => ⟨by simp [hd], h r⟩) fun _ => trivial

theorem comparison_spells (c : UInt8) (r : Bytes) (hc : c ∈ lit "<>") :
    Spells (c :: r) (scanComparison c r) := by
  have hc' : c = ch '<' ∨ c = ch '>' := by simpa [lit] using hc
  cases r with
  | nil => rcases hc' with rfl | rfl <;> exact ⟨by decide, .inr (.inl rfl)⟩
  | cons d r =>
    refine spells_ite (fun hd => ⟨by simp [operatorToken, hd], .equality c r ?_⟩)
      fun hd => ⟨rfl, .strict c _ hc (by simpa using hd)⟩
    rcases hc' with rfl | rfl <;> decide

theorem bang_spells (r : Bytes) : Spells (ch '!' :: r) (scanBang r) := by
  cases r with
  | nil => exact ⟨by decide, .inl rfl⟩
  | cons c r =>
    refine spells_ite (fun h => ⟨by simp [h, operatorToken, lit], .equality (ch '!') r (by decide)⟩)
      fun hne => spells_ite (fun h => ?_) fun h => ⟨rfl, .not _ (by simpa using hne) ?_⟩
    · subst h
      cases r with
      | nil => exact ⟨by decide, .inl rfl⟩
      | cons d r =>
        refine spells_ite (fun h => ?_) fun h =>
          ⟨rfl, .not _ (by simp [ch]) (by simpa [inAhead] using h)⟩
        simp only [Bool.and_eq_true, decide_eq_true_eq] at h
        exact ⟨by simp [h.1, operatorToken, lit], .notMember r h.2⟩
    · cases r <;> simp [inAhead, h]

theorem mem_takeWhile_opvalid {r : Bytes} {d : UInt8} (h : d ∈ r.takeWhile opvalid) :
    opvalid d = true := List.mem_takeWhile_imp h

theorem head_dropWhile_opvalid {r : Bytes} {d : UInt8} (h : d ∈ (r.dropWhile opvalid).head?) :
    opvalid d = false := by
  have := List.head?_dropWhile_not opvalid r
  rw [Option.mem_def.mp h] at this
  simpa using this

theorem operand_spells (c : UInt8) (r : Bytes) (hc : opvalid c = true)
    (hin : inAhead (c :: r) = false) : Spells (c :: r) (scanOperand c r) := by
  refine ⟨by simp [operandToken, List.takeWhile_append_dropWhile], .operand _ _ _ ?_ ?_ ?_⟩
  · intro d hd
    rcases List.mem_cons.mp hd with rfl | hd
    · exact hc
    · exact mem_takeWhile_opvalid hd
  · intro d hd
    exact head_dropWhile_opvalid hd
  · simpa [List.takeWhile_append_dropWhile] using hin

theorem word_spells (r : Bytes) : Spells (ch 'i' :: r) (scanWord r) := by
  match r with
  | [] => exact ⟨by decide, .inr (.inr ⟨rfl, rfl⟩)⟩
  | d :: r =>
    refine spells_ite (fun h => ?_) fun h => operand_spells _ _ (by decide) ?_
    · simp only [Bool.and_eq_true, decide_eq_true_eq] at h
      exact ⟨by simp [h.1, operatorToken, lit], .member r h.2⟩
    · simpa [inAhead] using h

theorem scanFrom_spells (r : Bytes) : Spells r (scanFrom r) := by
  match r with
  | [] => rfl
  | c :: r =>
    refine spells_ite (fun h => by simp [Spells, h]) fun _ => spells_ite (fun h => ?_) fun _ =>
      spells_ite (fun h => ?_) fun _ => spells_ite (fun h => ?_) fun _ =>
      spells_ite (fun h => ?_) fun _ => spells_ite (fun h => ?_) fun _ =>
      spells_ite (fun h => ?_) fun _ => spells_ite (fun h => ?_) fun _ =>
      spells_ite (fun h => ?_) fun _ => spells_ite (fun _ => trivial) fun hv =>
      spells_ite (fun h => ?_) fun hi => operand_spells c r (by simpa using hv) ?_
    rotate_right
    · cases r <;> simp [inAhead, hi]
    all_goals subst h
    · exact pair_spells _ _ _ _ .or
    · exact pair_spells _ _ _ _ .and
    · exact bang_spells r
    · exact ⟨rfl, .left r⟩
    · exact ⟨rfl, .right r⟩
    · exact pair_spells _ _ _ _ fun r => .equality (ch '=') r (by decide)
    · exact comparison_spells _ _ (by decide)
    · exact comparison_spells _ _ (by decide)
    · exact word_spells r

theorem scan_spells (r : Bytes) : Spells (r.dropWhile iswspace) (scan r) := scanFrom_spells _

theorem lexeme_value_ne {t : LexToken} {r : Bytes} (h : Lexeme t r) : t.value ≠ [] := by
  cases h <;> simp [orToken, andToken, leftToken, rightToken, operatorToken, notToken, operandToken,
    lit]

/-- The lexer reads a lexeme, unless it reads past the end. -/
theorem scanFrom_taken {t : LexToken} {r : Bytes} (h : Taken t r)
    (hr : r ≠ [] ∨ cut t.value = false) (hi : t = notToken → r ≠ [ch 'i']) :
    scanFrom (t.value ++ r) = .token t r := by
  cases h with
  | or | and | left | right => rfl
  | equality c _ hc =>
    have hc' : c = ch '=' ∨ c = ch '!' ∨ c = ch '<' ∨ c = ch '>' := by simpa [lit] using hc
    rcases hc' with rfl | rfl | rfl | rfl <;> rfl
  | strict c _ hc hne =>
    have hc' : c = ch '<' ∨ c = ch '>' := by simpa [lit] using hc
    cases r with
    | nil =>
      refine absurd (hr.resolve_left (by simp)) ?_
      rcases hc' with rfl | rfl <;> decide
    | cons d r =>
      have hd : d ≠ ch '=' := by simpa using hne
      have hs : scanComparison c (d :: r) = .token (operatorToken [c]) (d :: r) := if_neg hd
      rcases hc' with rfl | rfl <;> exact hs
  | not _ hne hin =>
    cases r with
    | nil => exact absurd (hr.resolve_left (by simp)) (by decide)
    | cons c r =>
      have hc : c ≠ ch '=' := by simpa using hne
      change scanBang (c :: r) = _
      rw [scanBang.eq_def]
      dsimp only
      rw [if_neg hc]
      split
      · next hci =>
        subst hci
        cases r with
        | nil => exact absurd rfl (hi rfl)
        | cons d r => exact if_neg (by simpa [inAhead] using hin)
      · rfl
  | member _ hsp =>
    change scanWord (ch 'n' :: r) = _
    simp [scanWord, hsp, operatorToken, lit]
  | notMember _ hsp =>
    change scanBang (ch 'i' :: ch 'n' :: r) = _
    simp [scanBang, hsp, operatorToken, lit, ch]
  | operand c v _ hv hnext hin =>
    have hcv : opvalid c = true := hv c (by simp)
    have hne : ∀ d, opvalid d = false → c ≠ d := fun d hd he => by simp [he, hd] at hcv
    have htake : scanOperand c (v ++ r) = .token (operandToken (c :: v)) r := by
      have hv' : ∀ d ∈ v, opvalid d = true := fun d hd => hv d (by simp [hd])
      have hstop : r.takeWhile opvalid = [] ∧ r.dropWhile opvalid = r := by
        cases r with
        | nil => simp
        | cons d r => simp [hnext d rfl]
      simp [scanOperand, List.takeWhile_append_of_pos hv', List.dropWhile_append_of_pos hv', hstop]
    simp only [operandToken, List.cons_append, scanFrom]
    rw [if_neg (hne _ rfl), if_neg (hne _ rfl), if_neg (hne _ rfl), if_neg (hne _ rfl),
      if_neg (hne _ rfl), if_neg (hne _ rfl), if_neg (hne _ rfl), if_neg (hne _ rfl),
      if_neg (hne _ rfl), if_neg (by simp [hcv])]
    by_cases hci : c = ch 'i'
    · subst hci
      rw [if_pos rfl]
      generalize hw : v ++ r = w at *
      cases w with
      | nil =>
        obtain ⟨rfl, rfl⟩ := List.append_eq_nil_iff.mp hw
        exact absurd (hr.resolve_left (by simp)) (by decide)
      | cons d w =>
        rw [scanWord, if_neg (by simpa [inAhead, hw] using hin), ← hw]
        rw [hw]
        exact htake
    · rw [if_neg hci]
      exact htake

theorem lexeme_no_space {t : LexToken} {r : Bytes} (h : Lexeme t r) :
    (t.value ++ r).dropWhile iswspace = t.value ++ r := by
  have hop : ∀ c, opvalid c = true → iswspace c = false := by
    intro c hc
    by_contra hsp
    simp [space_not_opvalid (by simpa using hsp)] at hc
  cases h with
  | or | and | left | right | not | member | notMember => rfl
  | equality c _ hc =>
    have hc' : c = ch '=' ∨ c = ch '!' ∨ c = ch '<' ∨ c = ch '>' := by simpa [lit] using hc
    rcases hc' with rfl | rfl | rfl | rfl <;> rfl
  | strict c _ hc hne =>
    have hc' : c = ch '<' ∨ c = ch '>' := by simpa [lit] using hc
    rcases hc' with rfl | rfl <;> rfl
  | operand c v _ hv hnext => simp [operandToken, hop c (hv c (by simp))]

theorem items_space {sp : Bytes} (r : Bytes) (hsp : ∀ c ∈ sp, iswspace c = true) :
    items (sp ++ r) = items r := by
  rw [← items_dropWhile, List.dropWhile_append_of_pos hsp, items_dropWhile]

theorem items_taken {t : LexToken} {r : Bytes} (h : Taken t r)
    (hr : r ≠ [] ∨ cut t.value = false) (hi : t = notToken → r ≠ [ch 'i']) :
    items (t.value ++ r) = keep t :: items r := by
  rw [items_eq, scan, lexeme_no_space h.lexeme, scanFrom_taken h hr hi]

theorem taken_nil {ts : List LexToken} (h : Spelled Taken [] ts) : ts = [] := by
  generalize hr : ([] : Bytes) = r at h
  cases h with
  | done => rfl
  | lexeme hsp ht h =>
    have := lexeme_value_ne ht.lexeme
    simp_all

theorem lexeme_ne_eof {t : LexToken} {r : Bytes} (h : Lexeme t r) : eofChar ∉ t.value := by
  cases h with
  | or | and | left | right | not | member | notMember => decide
  | equality c _ hc =>
    have hc' : c = ch '=' ∨ c = ch '!' ∨ c = ch '<' ∨ c = ch '>' := by simpa [lit] using hc
    rcases hc' with rfl | rfl | rfl | rfl <;> decide
  | strict c _ hc hne =>
    have hc' : c = ch '<' ∨ c = ch '>' := by simpa [lit] using hc
    rcases hc' with rfl | rfl <;> decide
  | operand c v _ hv hnext =>
    exact fun hm => absurd (hv _ hm) (by simp [eofChar_not_opvalid])

theorem lexed_ne_eof {r : Bytes} {ts : List LexToken} (h : Lexed r ts) : eofChar ∉ r := by
  have hsp' : ∀ sp : Bytes, (∀ c ∈ sp, iswspace c = true) → eofChar ∉ sp := fun sp hsp hm =>
    absurd (hsp _ hm) (by decide)
  induction h with
  | done hsp => exact hsp' _ hsp
  | lexeme hsp ht h ih => simp [hsp' _ hsp, lexeme_ne_eof ht, ih]

/-- On a clean text the lexer finds the lexemes. -/
theorem items_of_taken {r : Bytes} {ts : List LexToken} (h : Spelled Taken r ts) (hc : cut r = false) :
    items r = ts.map keep := by
  induction h with
  | done hsp =>
    have := items_space [] hsp
    simpa using this
  | @lexeme sp r t ts hsp ht h ih =>
    rw [cut_space _ hsp] at hc
    have hr : r ≠ [] ∨ cut t.value = false := by
      by_cases hr : r = []
      · exact .inr (by simpa [hr] using hc)
      · exact .inl hr
    have hi : t = notToken → r ≠ [ch 'i'] := by
      rintro rfl rfl
      exact absurd hc (by decide)
    have hc' : cut r = false := by
      by_cases hr : r = []
      · simp [hr]
      · rwa [cut_after ht.lexeme hr] at hc
    rw [items_space _ hsp, items_taken ht hr hi, ih hc', List.map_cons]

theorem taken_i {ts : List LexToken} (h : Spelled Taken [ch 'i'] ts) : ts = [operandToken [ch 'i']] := by
  generalize hr : [ch 'i'] = r at h
  cases h with
  | done hsp => exact absurd (hsp (ch 'i') (by simp [← hr])) (by decide)
  | @lexeme sp r t ts hsp ht h =>
    cases sp with
    | cons c sp =>
      obtain ⟨rfl, -⟩ := List.cons.inj hr
      exact absurd (hsp (ch 'i') (by simp)) (by decide)
    | nil =>
      obtain ⟨c, v, hv⟩ := List.exists_cons_of_ne_nil (lexeme_value_ne ht.lexeme)
      rw [hv] at hr
      simp only [List.nil_append, List.cons_append, List.cons.injEq, List.nil_eq,
        List.append_eq_nil_iff] at hr
      obtain ⟨rfl, rfl, rfl⟩ := hr
      rw [taken_nil h]
      cases ht <;> simp_all [orToken, andToken, leftToken, rightToken, operatorToken, notToken,
        operandToken, lit, ch]

/-- A lexeme that is cut is `!`, an operator or the operand `i`. -/
theorem lexeme_cut {t : LexToken} {r : Bytes} (h : Lexeme t r) (hc : cut t.value = true) :
    t = notToken ∨ t.id = .OPERATOR ∨ t = operandToken [ch 'i'] := by
  cases h with
  | or | and | left | right => exact absurd hc (by decide)
  | not => exact .inl rfl
  | equality | strict | member | notMember => exact .inr (.inl rfl)
  | operand c v _ hv =>
    refine .inr (.inr ?_)
    obtain ⟨p, d, hp⟩ := (List.eq_nil_or_concat (c :: v)).resolve_left (by simp)
    rw [List.concat_eq_append] at hp
    have hd : opvalid d = true := hv d (by simp [hp])
    have hne : ∀ x, opvalid x = false → d ≠ x := fun x hx he => by simp [he, hx] at hd
    simp only [operandToken, hp, cut_snoc] at hc ⊢
    have hnot : d ∉ lit "!<>" := by
      simp [lit, hne (ch '!') rfl, hne (ch '<') rfl, hne (ch '>') rfl]
    simp only [hnot, decide_false, Bool.false_or, Bool.and_eq_true, decide_eq_true_eq,
      Bool.not_eq_true'] at hc
    obtain ⟨rfl, hlast⟩ := hc
    rcases List.eq_nil_or_concat p with rfl | ⟨q, x, rfl⟩
    · rfl
    · rw [List.concat_eq_append, List.getLast?_concat] at hlast
      have := hv x (by simp [hp])
      simp [this] at hlast

/-- Where a text of lexemes is cut, its last lexeme is `!`, `<`, `>` or `i`. -/
theorem taken_cut {r : Bytes} {ts : List LexToken} (h : Spelled Taken r ts) (hc : cut r = true) :
    (∃ us t, ts = us ++ [t] ∧ (t = notToken ∨ t.id = .OPERATOR)) ∨
      (∃ us, ts = us ++ [notToken, operandToken [ch 'i']]) ∨
      ∃ us, ts = us ++ [operandToken [ch 'i']] ∧
        items r = us.map keep ++ [.token (operandToken []) false] := by
  induction h with
  | done hsp =>
    have := cut_space [] hsp
    simp [hc] at this
  | @lexeme sp r t ts hsp ht h ih =>
    rw [cut_space _ hsp] at hc
    rw [items_space _ hsp]
    by_cases hr : r = []
    · subst hr
      rw [taken_nil h]
      rw [List.append_nil] at hc ⊢
      rcases lexeme_cut ht.lexeme hc with h | h | rfl
      · exact .inl ⟨[], t, rfl, .inl h⟩
      · exact .inl ⟨[], t, rfl, .inr h⟩
      · exact .inr (.inr ⟨[], rfl, rfl⟩)
    · by_cases hi : t = notToken ∧ r = [ch 'i']
      · obtain ⟨rfl, rfl⟩ := hi
        exact .inr (.inl ⟨[], by rw [taken_i h]; rfl⟩)
      · rw [cut_after ht.lexeme hr] at hc
        rw [items_taken ht (.inl hr) fun h h' => hi ⟨h, h'⟩]
        rcases ih hc with ⟨us, u, rfl, hu⟩ | ⟨us, rfl⟩ | ⟨us, rfl, hit⟩
        · exact .inl ⟨t :: us, u, rfl, hu⟩
        · exact .inr (.inl ⟨t :: us, rfl⟩)
        · exact .inr (.inr ⟨t :: us, rfl, by rw [hit]; rfl⟩)

end Netplay.Lexemes
