import Netplay.StrayBytes

/-!
# What the parser accepts and what it returns

The parser keeps the meaning of the documented grammar, and accepts the
documented language wherever the text is clean. Elsewhere it takes a longer
text for a shorter one or loses the operand `i` at the end.
-/

namespace Netplay

open Text Lexer QueryParser Item LexerItems Lexemes

namespace Expression

mutual

/-- The values of the predicates, from left to right. -/
def values : Expression → List Bytes
  | .predicate p => [p.value]
  | .conjunction cs => valuesAll cs
  | .disjunction cs => valuesAll cs
  | .negation e => values e

def valuesAll : List Expression → List Bytes
  | [] => []
  | e :: es => values e ++ valuesAll es

end

mutual

theorem values_flip : ∀ e : Expression, e.flip.values = e.values
  | .predicate _ => rfl
  | .conjunction cs => valuesAll_flip cs
  | .disjunction cs => valuesAll_flip cs
  | .negation _ => rfl

theorem valuesAll_flip : ∀ es : List Expression, valuesAll (flipAll es) = valuesAll es
  | [] => rfl
  | e :: es => by rw [flipAll, valuesAll, valuesAll, values_flip e, valuesAll_flip es]

end

end Expression

namespace Source

mutual

/-- The values of the predicates of a reading, from left to right. -/
def values : Source → List Bytes
  | .predicate p => [p.value]
  | .not f => values f
  | .all fs => valuesAll fs
  | .any ts => valuesAll ts

def valuesAll : List Source → List Bytes
  | [] => []
  | s :: ss => values s ++ valuesAll ss

end

theorem values_gather {node : List Expression → Expression} (es : List Expression)
    (hnode : ∀ es, (node es).values = Expression.valuesAll es) :
    (gather node es).values = Expression.valuesAll es := by
  match es with
  | [] => exact hnode []
  | [_] => simp [Expression.valuesAll]
  | _ :: _ :: _ => exact hnode _

mutual

theorem values_tree : ∀ s : Source, s.tree.values = s.values
  | .predicate _ => rfl
  | .not f => by rw [tree, Expression.values_flip, values_tree f, values]
  | .all fs => by
    rw [tree, values_gather _ fun _ => by rw [Expression.values], valuesAll_trees fs, values]
  | .any ts => by
    rw [tree, values_gather _ fun _ => by rw [Expression.values], valuesAll_trees ts, values]

theorem valuesAll_trees : ∀ ss : List Source, Expression.valuesAll (trees ss) = valuesAll ss
  | [] => rfl
  | s :: ss => by rw [trees, Expression.valuesAll, valuesAll, values_tree s, valuesAll_trees ss]

end

end Source

namespace ParserText

/-- The values of a derivation are operands of its token list. -/
theorem derives_values {l : Level} {ts : List LexToken} {s : Source} (h : Derives l ts s) :
    ∀ v ∈ s.values, operandToken v ∈ ts := by
  induction h with
  | predicate a op v h => simp [Source.values]
  | not h ih => exact fun v hv => by simp [ih v hv]
  | group h ih => exact fun v hv => by simp [ih v hv]
  | factor h ih => exact fun v hv => ih v (by simpa [Source.values, Source.valuesAll] using hv)
  | and hf h ihf ih =>
    intro v hv
    simp only [Source.values, Source.valuesAll, List.mem_append] at hv
    rcases hv with hv | hv
    · simp [ihf v hv]
    · simp [ih v (by simpa [Source.values] using hv)]
  | term h ih => exact fun v hv => ih v (by simpa [Source.values, Source.valuesAll] using hv)
  | or ht h iht ih =>
    intro v hv
    simp only [Source.values, Source.valuesAll, List.mem_append] at hv
    rcases hv with hv | hv
    · simp [iht v hv]
    · simp [ih v (by simpa [Source.values] using hv)]

/-- How a token list of the grammar ends: in `)`, or in an operator and an
operand, which may be any other operand, kept or not. -/
def Ends (l : Level) (ts : List LexToken) : Prop :=
  (∃ us, ts = us ++ [rightToken]) ∨
    ∃ us op v, ts = us ++ [operatorToken op, operandToken v] ∧
      ∀ w k, ∃ s, Read l (us.map keep ++ [keep (operatorToken op), .token (operandToken w) k]) s ∧
        w ∈ s.values

theorem ends_prepend {l l' : Level} {us : List LexToken} (pre : List LexToken) (h : Ends l us)
    (hread : ∀ is s, Read l is s → ∃ s', Read l' (pre.map keep ++ is) s' ∧ s.values ⊆ s'.values) :
    Ends l' (pre ++ us) := by
  rcases h with ⟨us, rfl⟩ | ⟨us, op, v, rfl, hw⟩
  · exact .inl ⟨pre ++ us, by simp⟩
  · refine .inr ⟨pre ++ us, op, v, by simp, fun w k => ?_⟩
    obtain ⟨s, hs, hmem⟩ := hw w k
    obtain ⟨s', hs', hsub⟩ := hread _ s hs
    exact ⟨s', by simpa using hs', hsub hmem⟩

theorem derives_ends {l : Level} {ts : List LexToken} {s : Source} (h : Derives l ts s) :
    Ends l ts := by
  induction h with
  | predicate a op v h =>
    exact .inr ⟨[operandToken a], op, v, rfl, fun w k =>
      ⟨_, .predicate a op w true true k h, by simp [Source.values]⟩⟩
  | not h ih =>
    exact ends_prepend [notToken] ih fun is s hs => ⟨_, .not true hs, by simp [Source.values]⟩
  | group h ih => exact .inl ⟨_, rfl⟩
  | factor h ih =>
    exact ends_prepend [] ih fun is s hs =>
      ⟨_, .factor hs, by simp [Source.values, Source.valuesAll]⟩
  | @and ts us f fs hf h ihf ih =>
    have h : Ends .term (ts ++ [andToken] ++ us) := ends_prepend _ ih fun is s hs => by
      obtain ⟨gs, rfl⟩ := read_term_all hs
      exact ⟨_, by simpa using Read.and (.ofDerives hf) hs, by simp [Source.values, Source.valuesAll]⟩
    simpa using h
  | term h ih =>
    exact ends_prepend [] ih fun is s hs =>
      ⟨_, .term hs, by simp [Source.values, Source.valuesAll]⟩
  | @or ts us t rs ht h iht ih =>
    have h : Ends .expression (ts ++ [orToken] ++ us) := ends_prepend _ ih fun is s hs => by
      obtain ⟨gs, rfl⟩ := read_expression_any hs
      exact ⟨_, by simpa using Read.or (.ofDerives ht) nothing_dropped (by simp) hs,
        by simp [Source.values, Source.valuesAll]⟩
    simpa using h

/-! ## The documented reading of a text -/

/-- The text is a sequence of the lexemes `L` that the grammar derives. -/
def Documented (L : LexToken → Bytes → Prop) (s : Bytes) (src : Source) : Prop :=
  ∃ ts, Spelled L s ts ∧ Derives .expression ts src

/-- Without its strays the text is a sequence of lexemes that the grammar derives. -/
def Strayed (s : Bytes) : Prop := ∃ ts src, Strewn Evident s ts ∧ Derives .expression ts src

/-- `parse` does what the grammar says: the tree of the documented reading, or
`parse_exception` where there is none. -/
def FollowsGrammar (s : Bytes) : Prop :=
  (∃ src, Documented Lexeme s src ∧ parse s = .ok src.tree) ∨
    (¬ ∃ src, Documented Lexeme s src) ∧ ∃ msg, parse s = throwParse msg

theorem lexed_operand_ne {r : Bytes} {ts : List LexToken} (h : Lexed r ts) :
    operandToken [] ∉ ts := by
  induction h with
  | done hsp => simp
  | lexeme hsp ht h ih =>
    intro hm
    rcases List.mem_cons.mp hm with he | hm
    · exact lexeme_value_ne ht (by rw [← he]; rfl)
    · exact ih hm

theorem parse_accepted {text : Bytes} {src : Source} (h : ParserItems.Accepted (items text) src) :
    parse text = .ok src.tree := by
  rw [parse_items]
  refine ParserItems.parseFrom_accepted h _ ?_
  have := items_length text
  simp only [enough]
  omega

theorem accepted_of_derives {text : Bytes} {ts : List LexToken} {src : Source}
    (hi : items text = ts.map keep) (hd : Derives .expression ts src) :
    ParserItems.Accepted (items text) src :=
  ⟨items text, [], [], by simp, hi ▸ .ofDerives hd, by simp, by simp, .inl rfl⟩

/-- A text of evident lexemes that is not cut is accepted as it is documented. -/
theorem accepted_evident {text : Bytes} {ts : List LexToken} {src : Source}
    (hl : Spelled Evident text ts) (hc : cut text = false) (hd : Derives .expression ts src) :
    ParserItems.Accepted (items text) src :=
  accepted_of_derives (items_of_taken (spelled_taken hl (derives_phase hd)) hc) hd

/-- Where a documented text is cut the parser loses its last operand. -/
theorem documented_cut {text : Bytes} {src : Source} (h : Documented Evident text src)
    (hc : cut text = true) : ∃ src', ParserItems.Accepted (items text) src' ∧ [] ∈ src'.values := by
  obtain ⟨ts, hl, hd⟩ := h
  have hends := derives_ends hd
  rcases taken_cut (spelled_taken hl (derives_phase hd)) hc with
    ⟨us, t, rfl, ht⟩ | ⟨us, rfl⟩ | ⟨us, rfl, hit⟩
  · exfalso
    rcases hends with ⟨vs, he⟩ | ⟨vs, op, v, he, -⟩
    · have := List.append_inj_right' he rfl
      rcases ht with rfl | ht <;> simp_all [notToken, rightToken]
    · rw [List.append_cons vs] at he
      have := List.append_inj_right' he rfl
      rcases ht with rfl | ht <;> simp_all [notToken, operandToken]
  · exfalso
    rcases hends with ⟨vs, he⟩ | ⟨vs, op, v, he, -⟩
    · rw [List.append_cons us] at he
      have := List.append_inj_right' he rfl
      simp [operandToken, rightToken] at this
    · have := List.append_inj_right' he rfl
      simp [notToken, operatorToken] at this
  · rcases hends with ⟨vs, he⟩ | ⟨vs, op, v, he, hw⟩
    · have := List.append_inj_right' he rfl
      simp [operandToken, rightToken] at this
    · obtain ⟨src', hs, hmem⟩ := hw [] false
      rw [List.append_cons vs] at he
      obtain rfl := List.append_inj_left' he rfl
      refine ⟨src', ⟨items text, [], [], by simp, ?_, by simp, by simp, .inl rfl⟩, hmem⟩
      simpa [hit] using hs

/-- The parser accepts exactly the texts that are in the grammar without their strays. -/
theorem accepted_iff_strayed (text : Bytes) :
    (∃ src, ParserItems.Accepted (items text) src) ↔ Strayed text := by
  constructor
  · rintro ⟨src, hacc⟩
    obtain ⟨pre, tl, heq, hread, hbehind⟩ := accepted_iff.mp hacc
    have hlossy := items_lossy text
    rw [heq] at hlossy
    obtain ⟨ts, src', hd, hg⟩ := gapped_of_read hread hlossy.left
    exact ⟨ts, src', (strewn_of_items hg hbehind heq).mono fun _ _ ht => ht.evident, hd⟩
  · rintro ⟨ts, src, hs, hd⟩
    have hends := derives_phase hd
    obtain ⟨is, tl, heq, hg, hbehind⟩ := items_strewn (strewn_taken hs hends) hends
    obtain ⟨src', hread⟩ := read_gapped hd hg
    exact ⟨src', accepted_iff.mpr ⟨is, tl, heq, hread, hbehind⟩⟩

/-- A documented text that is accepted has a reading with evident lexemes. -/
theorem documented_evident {text : Bytes} {src src' : Source} (h : Documented Lexeme text src)
    (hacc : ParserItems.Accepted (items text) src') : Documented Evident text src := by
  obtain ⟨ts, hl, hd⟩ := h
  have hends := derives_phase hd
  rcases evident_or_mistaken hl hends with he | ⟨us, t, vs, i, is, rfl, ht, hitems, hi⟩
  · exact ⟨ts, he, hd⟩
  · rw [hitems] at hacc
    exact absurd hacc (not_accepted_of_operator hends ht hi)

/-- The parser keeps the meaning of the grammar: over the tokens of a
derivation, and so on any clean text with these lexemes, it returns a tree with
the value of the source under every valuation that makes the operator pairs
complementary. No tree it returns has a `NOT` node, and negating one twice
gives it back. -/
theorem parse_meaning :
    (∀ ts src, Derives .expression ts src →
      ∃ e, parseFrom source (enough ts.length) (ts.map keep) = .ok e ∧
        (∀ text, Spelled Evident text ts → Clean text → parse text = .ok e) ∧
        ∀ v, Expression.Complementary v → e.value v = src.value v) ∧
    ∀ text e, parse text = .ok e → e.Plain ∧ (e.negate >>= Expression.negate) = .ok e := by
  constructor
  · intro ts src hd
    have hacc : ParserItems.Accepted (ts.map keep) src :=
      ⟨ts.map keep, [], [], by simp, .ofDerives hd, by simp, by simp, .inl rfl⟩
    refine ⟨src.tree, ParserItems.parseFrom_accepted hacc _ (by simp), ?_, ?_⟩
    · intro text hl hc
      exact parse_accepted (accepted_evident hl hc.2 hd)
    · exact fun v hv => Source.value_tree v hv src hd.plain
  · intro text e hok
    rcases parse_outcome text with ⟨src, hacc, hok'⟩ | ⟨-, msg, hthrow⟩
    · obtain rfl : e = src.tree := by
        have := hok.symm.trans hok'
        simpa using this
      obtain ⟨pre, us, rest, -, hread, -⟩ := hacc
      have hplain := Source.tree_plain src hread.plain
      exact ⟨hplain, Expression.negate_negate _ hplain⟩
    · rw [hok] at hthrow
      cases hthrow

/-- The tokens of `!(a<b||c in d)`. -/
def groupTokens : List LexToken :=
  [notToken, leftToken, operandToken (lit "a"), operatorToken (lit "<"), operandToken (lit "b"),
    orToken, operandToken (lit "c"), operatorToken (lit "in"), operandToken (lit "d"), rightToken]

def groupSource : Source :=
  .any [.all [.not (.any [.all [.predicate ⟨lit "a", lit "<", lit "b"⟩],
    .all [.predicate ⟨lit "c", lit "in", lit "d"⟩]])]]

theorem groupTokens_derives : Derives .expression groupTokens groupSource :=
  .term (.factor (.not (.group (.or
    (.factor (.predicate (lit "a") (lit "<") (lit "b") (by decide)))
    (.term (.factor (.predicate (lit "c") (lit "in") (lit "d") (by decide))))))))

theorem parse_meaning_group :
    (∃ e, parseFrom source (enough groupTokens.length) (groupTokens.map keep) = .ok e ∧
      ∀ v, Expression.Complementary v → e.value v = groupSource.value v) ∧
    ∃ e, parse (lit "!(a<b||c in d)") = .ok e ∧ e.Plain ∧
      (e.negate >>= Expression.negate) = .ok e := by
  constructor
  · obtain ⟨e, hok, -, hv⟩ := parse_meaning.1 _ _ groupTokens_derives
    exact ⟨e, hok, hv⟩
  · have hok : (parse (lit "!(a<b||c in d)")).toBool = true := by decide +kernel
    cases he : parse (lit "!(a<b||c in d)") with
    | ok e => exact ⟨e, rfl, parse_meaning.2 _ e he⟩
    | error f => simp [he, Except.toBool] at hok

/-- The parser follows the grammar on a text exactly if a documented text has no operand `in` in
front of white space and does not end in the word `i`, and one that is not documented is not so
without its strays either. -/
theorem followsGrammar_iff (text : Bytes) : FollowsGrammar text ↔
    ((∃ src, Documented Lexeme text src) →
      cut text = false ∧ ∃ src, Documented Evident text src) ∧
    (Strayed text → ∃ src, Documented Lexeme text src) := by
  rw [← accepted_iff_strayed]
  constructor
  · rintro (⟨src, hdoc, hok⟩ | ⟨hno, msg, hthrow⟩)
    · refine ⟨fun _ => ?_, fun _ => ⟨src, hdoc⟩⟩
      rcases parse_outcome text with ⟨src', hacc, hok'⟩ | ⟨-, msg, hthrow⟩
      · have hevident := documented_evident hdoc hacc
        refine ⟨?_, src, hevident⟩
        by_contra hc
        obtain ⟨src', hacc, hmem⟩ := documented_cut hevident (by simpa using hc)
        have htree : src'.tree = src.tree := by
          have := (parse_accepted hacc).symm.trans hok
          simpa using this
        obtain ⟨ts, hl, hd⟩ := hdoc
        rw [← Source.values_tree, htree, Source.values_tree] at hmem
        exact lexed_operand_ne hl (derives_values hd [] hmem)
      · cases hok.symm.trans hthrow
    · refine ⟨fun h => absurd h hno, ?_⟩
      rintro ⟨src, hacc⟩
      cases (parse_accepted hacc).symm.trans hthrow
  · rintro ⟨hdoc, hstrayed⟩
    by_cases h : ∃ src, Documented Lexeme text src
    · obtain ⟨hc, src, ts, hl, hd⟩ := hdoc h
      have hl' : Lexed text ts := hl.mono fun _ _ ht => ht.1
      exact .inl ⟨src, ⟨ts, hl', hd⟩, parse_accepted (accepted_evident hl hc hd)⟩
    · rcases parse_outcome text with ⟨src, hacc, -⟩ | ⟨-, hthrow⟩
      · exact absurd (hstrayed ⟨src, hacc⟩) h
      · exact .inr ⟨h, hthrow⟩

/-- A text whose tree no documented reading has. -/
theorem not_follows {text v : Bytes}
    (hok : parse text = .ok (.predicate ⟨lit "a", lit "==", v⟩))
    (hno : ∀ src, Documented Lexeme text src → src.values ≠ [v]) : ¬ FollowsGrammar text := by
  rintro (⟨src, hdoc, hok'⟩ | ⟨-, msg, hthrow⟩)
  · have htree := hok.symm.trans hok'
    simp only [Except.ok.injEq] at htree
    exact hno src hdoc (by rw [← Source.values_tree, ← htree]; rfl)
  · rw [hok] at hthrow
    cases hthrow

theorem accepted_of_parse {text : Bytes} {e : Expression} (h : parse text = .ok e) :
    ∃ src, ParserItems.Accepted (items text) src := by
  rcases parse_outcome text with ⟨src, hacc, -⟩ | ⟨-, msg, hthrow⟩
  · exact ⟨src, hacc⟩
  · cases h.symm.trans hthrow

/-- The documented reading of `a==in` and a space. -/
theorem word_documented : Documented Lexeme (lit "a==in ")
    (.any [.all [.predicate ⟨lit "a", lit "==", lit "in"⟩]]) := by
  refine ⟨_, ?_, .term (.factor (.predicate (lit "a") (lit "==") (lit "in") (by decide)))⟩
  have hsp : ∀ c ∈ ([] : Bytes), iswspace c = true := nofun
  have hspace : ∀ c ∈ lit " ", iswspace c = true := List.all_eq_true.mp (by decide)
  have hword : ∀ d ∈ lit "in", opvalid d = true := List.all_eq_true.mp (by decide)
  have hends : ∀ c : UInt8, opvalid c = false → ∀ r, WordEnds (c :: r) := by
    rintro c hc r _ ⟨⟩
    exact hc
  have hvalue : Lexeme (operandToken (lit "in")) (lit " ") :=
    .operand (ch 'i') (lit "n") _ hword (hends (ch ' ') (by decide) [])
  have hop : Lexeme (operatorToken (lit "==")) (lit "in ") := .equality (ch '=') _ (by decide)
  have hattr : Lexeme (operandToken (lit "a")) (lit "==in ") :=
    .operand (ch 'a') [] _ (List.all_eq_true.mp (by decide)) (hends (ch '=') (by decide) _)
  exact .lexeme hsp hattr (.lexeme hsp hop (.lexeme hsp hvalue (.done hspace)))

theorem not_followsGrammar :
    ¬ FollowsGrammar (lit "a==i") ∧ ¬ FollowsGrammar (lit "a==b!") ∧
      ¬ FollowsGrammar (lit "a==b" ++ [eofChar]) ∧ ¬ FollowsGrammar (lit "a==in ") := by
  refine ⟨not_follows rfl ?_, not_follows rfl ?_, not_follows rfl ?_, ?_⟩
  · rintro src ⟨ts, hl, hd⟩ hv
    exact lexed_operand_ne hl (derives_values hd [] (by simp [hv]))
  · intro src hdoc hv
    have hok : parse (lit "a==b!") = .ok (.predicate ⟨lit "a", lit "==", lit "b"⟩) := rfl
    obtain ⟨src'', hacc⟩ := accepted_of_parse hok
    obtain ⟨src', hacc', hmem⟩ := documented_cut (documented_evident hdoc hacc) (by decide)
    rw [parse_accepted hacc', Except.ok.injEq] at hok
    rw [← Source.values_tree, hok] at hmem
    exact absurd hmem (by simp [Expression.values, lit])
  · rintro src ⟨ts, hl, hd⟩ hv
    exact lexed_ne_eof hl (by decide)
  · have hthrow : (parse (lit "a==in ")).toBool = false := by decide +kernel
    rintro (⟨src, -, hok⟩ | ⟨hno, -⟩)
    · rw [hok] at hthrow
      cases hthrow
    · exact hno ⟨_, word_documented⟩

end ParserText

end Netplay
