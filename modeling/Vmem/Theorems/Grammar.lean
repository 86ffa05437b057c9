import Vmem.Lemmas.Sentences

/-!
# The parser accepts its grammar

Over printable lines the parser is exact: it accepts the sentences of the grammar and nothing else, and it adds the statement that the sentence
writes.
-/

namespace Vmem

namespace GrammarAux

open Grammar ScriptAux

/-- A sentence writes one statement. -/
theorem sentence_unique {P : Parser} (hP : P.Sound) {no : Nat} {t dst dst' : Text} {st st' : Stmt} (hp : Printable t)
    (h : Sentence P no t dst st) (h' : Sentence P no t dst' st') : dst' = dst ∧ st' = st := by
  obtain ⟨m, hm, rfl, c, hc, -, st0, hconv, hassigned⟩ := (sentence_iff hp).2 h
  obtain ⟨m', hm', rfl, c', hc', -, st1, hconv', hassigned'⟩ := (sentence_iff hp).2 h'
  cases hm.symm.trans hm'
  cases hc.symm.trans hc'
  cases hconv.unique hP hconv'
  refine ⟨rfl, ?_⟩
  rcases hassigned with ⟨hnil, rfl⟩ | ⟨hne, -, -, i, hi, rfl⟩
  · rcases hassigned' with ⟨-, rfl⟩ | ⟨hne', -, -, j, hj, rfl⟩
    · rfl
    · exact absurd hnil hne'
  · rcases hassigned' with ⟨hnil, -⟩ | ⟨-, -, -, j, hj, rfl⟩
    · exact absurd hnil hne
    · rw [slotOf_unique (sound_accept hP _ st0) hi hj]

/-- The content of a printable line is printable. -/
theorem printable_content {raw t : Text} (hp : Printable raw) (h : Content raw t) : Printable t := by
  obtain ⟨w, w', comment, rfl, -⟩ := h
  exact (printable_append.1 (printable_append.1 (printable_append.1 hp).1).1).2

end GrammarAux

open Grammar GrammarAux ScriptAux in
/-- Behind any lines, a printable line is accepted exactly when it is a sentence of the grammar. -/
theorem parser_accepts_grammar (before : List Text) (no : Nat) (raw : Text) (hraw : Printable raw) :
    (Parser.lines 1 before {}).ReadsByGrammar no raw := by
  have hsound : (Parser.lines 1 before {}).Sound := sound_lines before sound_empty
  have hcontent := content_spec hraw
  have hp := printable_content hraw hcontent
  refine ⟨content raw, hcontent, fun t' ht' => content_unique hraw ht', ?_⟩
  rcases line_cases hsound no raw with ⟨hnil, h⟩ | ⟨hne, dst, st, hparsed, h⟩ | ⟨hne, h, hno⟩
  · exact .inl ⟨hnil, h⟩
  · have hs := (sentence_iff hp).1 hparsed
    exact .inr (.inl ⟨hne, dst, st, hs, fun dst' st' hs' => sentence_unique hsound hp hs hs', h⟩)
  · exact .inr (.inr ⟨hne, fun dst st hs => hno dst st ((sentence_iff hp).2 hs), h⟩)

/-- A line with a comment, behind lines that define what it uses. -/
theorem parser_accepts_grammar_map :
    (Parser.lines 1 ["r = reserve(64M)".toList, "c = create(2M, host)".toList] {}).ReadsByGrammar 3 "map(c, r + 2M)  # one chunk".toList :=
  parser_accepts_grammar ["r = reserve(64M)".toList, "c = create(2M, host)".toList] 3 "map(c, r + 2M)  # one chunk".toList (by decide)

end Vmem
