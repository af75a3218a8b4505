import TermLang.Proofs.JsonText
import TermLang.Proofs.Places
import TermLang.Proofs.Steady
import TermLang.Report.Diagnostic

/-!
# Errors tell where they are

A lexical error is about a part of the source. A syntax error arises at a cursor, and is about the
token there or about the end of the source. In either case the text of the error stands at its
position, and so it does in the report.
-/

namespace TermLang

/-- The text that an error is about. -/
def SourceError.text : SourceError → String
  | .lexical e => e.found
  | .syntactic e => e.lexeme

/-- A program that is not read fails at some cursor. -/
theorem errorAt_of_parseProgram {ts : List Token} {maxDepth : Nat} {e : SyntaxError}
    (h : parseProgram ts maxDepth = .error e) :
    ∃ c rule fault, e = Parse.errorAt ⟨ts.toArray, maxDepth⟩ c rule fault := by
  have halike : Stream.Alike ⟨ts.toArray, maxDepth⟩ ⟨ts.toArray, maxDepth⟩ := ⟨rfl, Nat.le_refl _⟩
  cases Grammar.steady_program halike .start with
  | ok ha => exact nomatch ha.symm.trans h
  | error ha => exact ⟨_, _, _, (Except.error.inj (ha.symm.trans h)).symm⟩
  | tooDeep hlt => exact absurd hlt (Nat.lt_irrefl _)

/-- An error at a cursor is about the token there, or about the end of the last token. -/
theorem errorAt_cases (s : Stream) (c : Cursor) (rule : Rule) (fault : SyntaxFault) :
    (∃ t, s.tokens[c.pos]? = some t ∧
      Parse.errorAt s c rule fault = ⟨fault, rule, t.span.start, t.kind, t.lexeme⟩) ∨
    (∃ t, s.tokens.back? = some t ∧
      Parse.errorAt s c rule fault = ⟨fault, rule, t.span.stop, .eof, ""⟩) ∨ s.tokens = #[] := by
  cases ht : s.tokens[c.pos]? with
  | some t => exact .inl ⟨t, rfl, by simp [Parse.errorAt, Stream.kindAt, ht]⟩
  | none =>
    cases hb : s.tokens.back? with
    | some t => exact .inr (.inl ⟨t, rfl, by simp [Parse.errorAt, Stream.kindAt, ht, hb]⟩)
    | none => exact .inr (.inr (Array.back?_eq_none_iff.1 hb))

/-- A syntax error is about a token of the row, since past the row it is about the last one. -/
theorem exists_token_of_syntaxError {source : String} {ts : List Token} {maxDepth : Nat}
    {e : SyntaxError} (hts : tokenize source = .ok ts) (h : parseProgram ts maxDepth = .error e) :
    ∃ t ∈ ts, e.found = t.kind ∧ e.lexeme = t.lexeme ∧ e.position = t.span.start := by
  obtain ⟨row, rfl, -⟩ := tokensFrom_last hts
  generalize Position.start.advance source.toList = q at h hts ⊢
  obtain ⟨c, rule, fault, rfl⟩ := errorAt_of_parseProgram h
  rcases errorAt_cases ⟨(row ++ [Token.eof q]).toArray, maxDepth⟩ c rule fault with
    ⟨t, ht, he⟩ | ⟨t, ht, he⟩ | hnil
  · rw [he]
    exact ⟨t, by simpa using Array.mem_of_getElem? ht, rfl, rfl, rfl⟩
  · obtain rfl : Token.eof q = t := by simpa using ht
    rw [he]
    exact ⟨_, List.mem_append_right _ (List.mem_singleton_self _), rfl, rfl, rfl⟩
  · simp at hnil

/-- The token that a syntax error is about stands at its position; it is the end of the input if it
has no text, and then the position is the end of the source. -/
theorem syntaxError_stands {source : String} {ts : List Token} {maxDepth : Nat} {e : SyntaxError}
    (hts : tokenize source = .ok ts) (h : parseProgram ts maxDepth = .error e) :
    Stands .start source.toList e.lexeme.toList e.position ∧
      (e.found = .eof ↔ e.lexeme = "" ∧ e.position = Position.start.advance source.toList) := by
  obtain ⟨row, rfl, hrow⟩ := tokensFrom_last hts
  obtain ⟨c, rule, fault, rfl⟩ := errorAt_of_parseProgram h
  rcases errorAt_cases ⟨(row ++ [Token.eof (Position.start.advance source.toList)]).toArray, maxDepth⟩
    c rule fault with ⟨t, ht, he⟩ | ⟨t, ht, he⟩ | hnil
  · have hmem : t ∈ row ++ [Token.eof (Position.start.advance source.toList)] := by
      simpa using Array.mem_of_getElem? ht
    rw [he]
    refine ⟨(tokensFrom_stands hts t hmem).1, ?_⟩
    rcases List.mem_append.1 hmem with hmem | hmem
    · obtain ⟨hkind, hlexeme⟩ := hrow t hmem
      exact ⟨fun hk => absurd hk hkind, fun hl => absurd hl.1 hlexeme⟩
    · obtain rfl := List.mem_singleton.1 hmem
      exact ⟨fun _ => ⟨rfl, rfl⟩, fun _ => rfl⟩
  · obtain rfl : Token.eof (Position.start.advance source.toList) = t := by simpa using ht
    rw [he]
    exact ⟨⟨source.toList, [], by simp, rfl⟩, fun _ => ⟨rfl, rfl⟩, fun _ => rfl⟩
  · simp at hnil

/-- An error in a source arises in reading it into tokens, or in reading these. -/
theorem sourceError_cases {source : String} {maxDepth : Nat} {e : SourceError}
    (h : parseSource source maxDepth = .error e) :
    (∃ e', e = .lexical e' ∧ tokenize source = .error e') ∨
      ∃ ts e', e = .syntactic e' ∧ tokenize source = .ok ts ∧ parseProgram ts maxDepth = .error e' := by
  rw [parseSource_eq] at h
  split at h
  · rename_i e' hlex
    exact .inl ⟨e', (Except.error.inj h).symm, hlex⟩
  · rename_i ts hts
    split at h
    · rename_i e' hparse
      exact .inr ⟨ts, e', (Except.error.inj h).symm, hts, hparse⟩
    · exact nomatch h

theorem exists_tokens_of_syntactic {source : String} {maxDepth : Nat} {e : SyntaxError}
    (h : parseSource source maxDepth = .error (.syntactic e)) :
    ∃ ts, tokenize source = .ok ts ∧ parseProgram ts maxDepth = .error e := by
  obtain ⟨_, heq, -⟩ | ⟨ts, e', heq, hts, hparse⟩ := sourceError_cases h
  · exact nomatch heq
  · obtain rfl := SourceError.syntactic.inj heq
    exact ⟨ts, hts, hparse⟩

/-- The text of an error stands at its position, and a syntax error that has none is at the end. -/
theorem sourceError_stands {source : String} {maxDepth : Nat} {e : SourceError}
    (h : parseSource source maxDepth = .error e) :
    Stands .start source.toList e.text.toList e.position ∧
      ∀ e', e = .syntactic e' →
        (e'.found = .eof ↔ e.text = "" ∧ e.position = Position.start.advance source.toList) := by
  obtain ⟨e, rfl, hlex⟩ | ⟨ts, e, rfl, hts, hparse⟩ := sourceError_cases h
  · have hstands : Stands .start source.toList e.found.toList e.position := tokensFrom_error hlex
    refine ⟨hstands, fun e' heq => ?_⟩
    cases heq
  · obtain ⟨hstands, hfound⟩ := syntaxError_stands hts hparse
    refine ⟨hstands, fun e' heq => ?_⟩
    obtain rfl := SourceError.syntactic.inj heq
    exact hfound

/-! ## The report -/

theorem span_ofSourceError (file : SourceFile) (e : SourceError) :
    (Diagnostic.ofSourceError file e).span = some (file.spanOf e.position.offset
      (e.position.offset + Text.byteSize e.text.toList)) := by
  cases e <;> rfl

/-- Only the end of the input is reported as an unexpected end. -/
theorem code_ofSourceError (file : SourceFile) {e : SyntaxError} {kinds : KindSet}
    (h : e.fault = .unexpected kinds) :
    (Diagnostic.ofSourceError file (.syntactic e)).code = ErrorCode.unexpectedEnd.code ↔
      e.found = .eof := by
  have hcode : (Diagnostic.ofSourceError file (.syntactic e)).code =
      (if e.found = .eof then ErrorCode.unexpectedEnd else ErrorCode.unexpectedToken).code := by
    show (ErrorCode.ofSyntaxError e).code = _
    simp only [ErrorCode.ofSyntaxError, h]
  rw [hcode]
  split
  · rename_i hfound
    exact ⟨fun _ => hfound, fun _ => rfl⟩
  · rename_i hfound
    exact ⟨fun hne => absurd hne (by decide), fun heq => absurd heq hfound⟩

/-- The position that reading reaches at the end of the content is that of its size. -/
theorem SourceFile.positionAt_size (file : SourceFile) :
    file.positionAt file.size = Position.start.advance file.chars :=
  positionAt_byteSize (List.append_nil _).symm

/-- The offset of an error is where its text stands in the source; its line and column are those of
the offset; the report covers that very text from that very position; and the report of an
unexpected token is one of an unexpected end if and only if the text is empty and the offset is the
end of the source. -/
theorem sourceError_located (file : SourceFile) (maxDepth : Nat) (e : SourceError)
    (h : parseSource file.content maxDepth = .error e) :
    Text.slice? e.position.offset (e.position.offset + Text.byteSize e.text.toList) file.chars =
        some e.text.toList ∧
      e.position = file.positionAt e.position.offset ∧
      (∃ span, (Diagnostic.ofSourceError file e).span = some span ∧ span.start = e.position ∧
        file.textOf? span = some e.text) ∧
      ∀ e' kinds, e = .syntactic e' → e'.fault = .unexpected kinds →
        ((Diagnostic.ofSourceError file e).code = "E0202" ↔
          e.text = "" ∧ e.position.offset = file.size) := by
  obtain ⟨hstands, hfound⟩ := sourceError_stands h
  obtain ⟨hslice, hposition, htext⟩ := Stands.in_file hstands
  refine ⟨hslice, hposition, ⟨_, span_ofSourceError file e, hposition.symm, ?_⟩, ?_⟩
  · rw [htext, String.ofList_toList]
  rintro e' kinds rfl hfault
  refine (code_ofSourceError file hfault).trans ((hfound e' rfl).trans (and_congr_right fun _ => ?_))
  have hend : Position.start.advance file.content.toList = file.positionAt file.size :=
    file.positionAt_size.symm
  rw [hend]
  constructor
  · intro heq
    rw [heq, SourceFile.positionAt_offset, Nat.min_self]
  · intro hoffset
    rw [hposition, hoffset]

/-! A source that ends inside an argument list, after a comment of two lines with wide characters. -/

/-- The name `f`, an opening bracket and a comment. -/
def unfinishedFile : SourceFile := ⟨"a", "f( /* é\n€ */ "⟩

/-- The first argument or the closing bracket is missing at the end. -/
def unfinishedError : SyntaxError :=
  ⟨.unexpected (.ofList (.parenClose :: Grammar.termStart)), .positionalApplier, ⟨2, 6, 16⟩, .eof, ""⟩

theorem sourceError_located_unfinished :
    parseSource unfinishedFile.content 9 = .error (.syntactic unfinishedError) ∧
      unfinishedFile.positionAt 16 = ⟨2, 6, 16⟩ ∧
      (Diagnostic.ofSourceError unfinishedFile (.syntactic unfinishedError)).code = "E0202" := by
  have h : parseSource unfinishedFile.content 9 = .error (.syntactic unfinishedError) := by
    decide +kernel
  obtain ⟨-, hposition, -, hcode⟩ := sourceError_located unfinishedFile 9 _ h
  have hposition' : unfinishedFile.positionAt 16 = ⟨2, 6, 16⟩ := hposition.symm
  have hend : unfinishedError.position.offset = unfinishedFile.size := by decide
  have hcode' := hcode _ _ rfl rfl
  exact ⟨h, hposition', hcode'.2 ⟨rfl, hend⟩⟩

end TermLang
