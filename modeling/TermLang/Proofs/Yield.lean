import TermLang.Layout.Printer

/-!
# The yield of a term

The grammar reads of a token its kind, the name if it is an identifier and the value if it is a
literal. A term has one row of such terminals, its yield, defined by recursion on the term. The
printer writes exactly the yield: `words_pieces`.
-/

namespace TermLang

/-- A terminal symbol of the grammar: a punctuation mark or keyword, a name, or a value. -/
inductive Terminal
  | mark (kind : Kind)
  | name (text : String)
  | value (literal : Literal)
deriving DecidableEq, Repr

/-- The kind of the tokens that carry a literal. -/
def Literal.kind : Literal → Kind
  | .int _ => .integer
  | .decimal _ => .decimal
  | .bool _ => .bool
  | .char _ => .char
  | .string _ => .string

/-- What the grammar reads of a word. A literal word without a value of its own kind reads as a
bare mark, which begins no term. -/
def Word.terminal (w : Word) : Terminal :=
  match w.kind, w.literal with
  | .ident, _ => .name w.lexeme
  | .bool, some (.bool b) => .value (.bool b)
  | .integer, some (.int n) => .value (.int n)
  | .decimal, some (.decimal x) => .value (.decimal x)
  | .string, some (.string s) => .value (.string s)
  | .char, some (.char c) => .value (.char c)
  | k, _ => .mark k

namespace Terminal

/-- The kind of the tokens that a terminal stands for. -/
def kind : Terminal → Kind
  | .mark k => k
  | .name _ => .ident
  | .value l => l.kind

/-- The word that the printer writes for a terminal. -/
def word : Terminal → Word
  | .mark k => .ofKind k
  | .name text => .ident text
  | .value l => l.word

@[simp] theorem kind_mark (k : Kind) : (mark k).kind = k := rfl

@[simp] theorem kind_name (text : String) : (name text).kind = .ident := rfl

@[simp] theorem kind_value (l : Literal) : (value l).kind = l.kind := rfl

/-- Terminals between an opening and a closing mark. -/
def within (opening closing : Kind) (ys : List Terminal) : List Terminal :=
  .mark opening :: (ys ++ [.mark closing])

end Terminal

namespace Word

theorem kind_terminal (w : Word) : w.terminal.kind = w.kind := by
  unfold terminal
  split <;> simp_all [Literal.kind]

/-- Words of different kinds have different terminals. -/
theorem kind_eq_of_terminal_eq {v w : Word} (h : v.terminal = w.terminal) : v.kind = w.kind := by
  rw [← kind_terminal v, h, kind_terminal]

/-- The kinds that carry neither a name nor a value are known by their kind alone. -/
theorem terminal_of_kind {w : Word} {k : Kind} (hw : w.kind = k) (hk : k.isLiteral = false) :
    w.terminal = .mark k := by
  subst hw
  unfold terminal
  split <;> simp_all [Kind.isLiteral]

theorem terminal_ident {w : Word} (hw : w.kind = .ident) : w.terminal = .name w.lexeme := by
  unfold terminal
  split <;> simp_all

theorem terminal_eq_name_iff {w : Word} {text : String} :
    w.terminal = .name text ↔ w.kind = .ident ∧ w.lexeme = text := by
  constructor
  · intro h
    have hk : w.kind = .ident := by rw [← kind_terminal, h]; rfl
    rw [terminal_ident hk] at h
    exact ⟨hk, by injection h⟩
  · rintro ⟨hk, rfl⟩
    exact terminal_ident hk

theorem terminal_eq_value_iff {w : Word} {l : Literal} :
    w.terminal = .value l ↔ w.kind = l.kind ∧ w.literal = some l := by
  unfold terminal
  constructor
  · intro h
    split at h <;> simp_all [Literal.kind] <;> subst h <;> simp_all
  · rintro ⟨hk, hl⟩
    rw [hk, hl]
    cases l <;> rfl

theorem terminal_ofKind {k : Kind} (hk : k.isLiteral = false) : (ofKind k).terminal = .mark k :=
  terminal_of_kind rfl hk

@[simp] theorem terminal_ident_word (text : String) : (ident text).terminal = .name text := rfl

@[simp] theorem terminal_word_value (l : Literal) : l.word.terminal = .value l := by
  cases l <;> rfl

end Word

/-! ## Kinds with a spelling of their own -/

/-- A kind with a spelling is no literal and not the end of the input. -/
theorem Kind.plain_of_text? {k : Kind} (h : k.text?.isSome = true) :
    k ≠ .eof ∧ k.isLiteral = false := by
  revert h
  cases k <;> decide

theorem Signature.isSome_text? (sort : Signature) : sort.keyword.text?.isSome = true := by
  cases sort <;> rfl

theorem Record.isSome_text? (sort : Record) : sort.keyword.text?.isSome = true := by
  cases sort <;> rfl

theorem Spread.isSome_text? (sort : Spread) : sort.mark.text?.isSome = true := by
  cases sort <;> rfl

/-! ## Yields -/

open Terminal (within)

/-- The yield of a name that may be left out. -/
def nameYield : Option String → List Terminal
  | some text => [.name text]
  | none => []

/-- The yield of the beginning of an annotation. -/
def annoStartYield : Option Spread → List Terminal
  | none => [.mark .colon]
  | some sort => [.mark .colon, .mark sort.mark]

mutual

/-- The row of terminals that a term is read from. -/
def Term.yield : Term → List Terminal
  | .ident text => [.name text]
  | .literal value => [.value value]
  | .block body => .mark .kwBlock :: within .braceOpen .braceClose (termsYield body)
  | .generic params body =>
    within .bracketOpen .bracketClose (paramsYield params) ++ body.yield
  | .binding b => b.yield
  | .forEach text source body =>
    .mark .kwFor :: .name text :: .mark .kwIn ::
      (source.yield ++ within .braceOpen .braceClose (termsYield body))
  | .forever body => .mark .kwFor :: within .braceOpen .braceClose (termsYield body)
  | .forWhile condition body =>
    .mark .kwFor :: (condition.yield ++ within .braceOpen .braceClose (termsYield body))
  | .signature sort text params =>
    .mark sort.keyword :: (nameYield text ++ within .braceOpen .braceClose (paramsYield params))
  | .record sort text fields =>
    .mark sort.keyword :: (nameYield text ++ within .braceOpen .braceClose (fieldsYield fields))
  | .trait text bindings =>
    .mark .kwTrait :: (nameYield text ++ within .braceOpen .braceClose (bindingsYield bindings))
  | .funType params result =>
    within .parenOpen .parenClose (termsYield params) ++ .mark .arrow :: result.yield
  | .function params result body =>
    within .parenOpen .parenClose (paramsYield params) ++ (resultYield result ++ body.yield)
  | .cases branches => .mark .kwCase :: within .braceOpen .braceClose (branchesYield branches)
  | .spread sort operand => .mark sort.mark :: operand.yield
  | .select target text => target.yield ++ [.mark .dot, .name text]
  | .apply sort target args =>
    target.yield ++ within sort.opening sort.closing (argsYield args)
  | .applyNamed target fields =>
    target.yield ++ within .braceOpen .braceClose (fieldsYield fields)
  | .assign target value => target.yield ++ .mark .equals :: value.yield

/-- The yields of terms in a row. -/
def termsYield : List Term → List Terminal
  | [] => []
  | t :: ts => t.yield ++ termsYield ts

/-- The yield of a result, if there is one. -/
def resultYield : Option Term → List Terminal
  | none => []
  | some t => .mark .arrow :: t.yield

/-- The yield of an annotation. -/
def Anno.yield : Anno → List Terminal
  | .mk sort type => annoStartYield sort ++ type.yield

/-- The yield of an annotation, if there is one. -/
def annoYield : Option Anno → List Terminal
  | none => []
  | some a => a.yield

/-- The yield of a parameter. -/
def Param.yield : Param → List Terminal
  | .mk text anno => .name text :: annoYield anno

/-- The yields of parameters in a row. -/
def paramsYield : List Param → List Terminal
  | [] => []
  | p :: ps => p.yield ++ paramsYield ps

/-- The yield of a field. -/
def Field.yield : Field → List Terminal
  | .given text anno value => .name text :: (annoYield anno ++ .mark .equals :: value.yield)
  | .shorthand text => [.name text]

/-- The yields of fields in a row. -/
def fieldsYield : List Field → List Terminal
  | [] => []
  | f :: fs => f.yield ++ fieldsYield fs

/-- The yield of an argument. -/
def Arg.yield : Arg → List Terminal
  | .named field => field.yield
  | .positional term => term.yield

/-- The yields of arguments in a row. -/
def argsYield : List Arg → List Terminal
  | [] => []
  | a :: as => a.yield ++ argsYield as

/-- The yield of a body, its arrow included. -/
def Body.yield : Body → List Terminal
  | .block terms => .mark .fatArrow :: within .braceOpen .braceClose (termsYield terms)
  | .single term => .mark .fatArrow :: term.yield

/-- The yield of a branch. -/
def Branch.yield : Branch → List Terminal
  | .mk guard body => .mark .kwWhen :: (guard.yield ++ body.yield)

/-- The yields of branches in a row. -/
def branchesYield : List Branch → List Terminal
  | [] => []
  | b :: bs => b.yield ++ branchesYield bs

/-- The yield of a binding. -/
def Binding.yield : Binding → List Terminal
  | .init text anno value =>
    .mark .kwLet :: .name text :: (annoYield anno ++ .mark .equals :: value.yield)
  | .bare text => [.mark .kwLet, .name text]

/-- The yields of bindings in a row. -/
def bindingsYield : List Binding → List Terminal
  | [] => []
  | b :: bs => b.yield ++ bindingsYield bs

end

/-- The yield of a program: the yields of its terms in a row. -/
def Program.yield (p : Program) : List Terminal := termsYield p.terms

theorem termsYield_eq (ts : List Term) : termsYield ts = ts.flatMap Term.yield := by
  induction ts with
  | nil => rfl
  | cons t ts ih => rw [termsYield, ih, List.flatMap_cons]

theorem paramsYield_eq (ps : List Param) : paramsYield ps = ps.flatMap Param.yield := by
  induction ps with
  | nil => rfl
  | cons p ps ih => rw [paramsYield, ih, List.flatMap_cons]

theorem fieldsYield_eq (fs : List Field) : fieldsYield fs = fs.flatMap Field.yield := by
  induction fs with
  | nil => rfl
  | cons f fs ih => rw [fieldsYield, ih, List.flatMap_cons]

theorem argsYield_eq (as : List Arg) : argsYield as = as.flatMap Arg.yield := by
  induction as with
  | nil => rfl
  | cons a as ih => rw [argsYield, ih, List.flatMap_cons]

theorem branchesYield_eq (bs : List Branch) : branchesYield bs = bs.flatMap Branch.yield := by
  induction bs with
  | nil => rfl
  | cons b bs ih => rw [branchesYield, ih, List.flatMap_cons]

theorem bindingsYield_eq (bs : List Binding) : bindingsYield bs = bs.flatMap Binding.yield := by
  induction bs with
  | nil => rfl
  | cons b bs ih => rw [bindingsYield, ih, List.flatMap_cons]

/-! ## The printer writes the yield -/

namespace Piece

@[simp] theorem words_nil : words [] = [] := rfl

@[simp] theorem words_word (w : Word) (ps : List Piece) : words (.word w :: ps) = w :: words ps :=
  rfl

@[simp] theorem words_mark (k : Kind) (ps : List Piece) :
    words (mark k :: ps) = Terminal.word (.mark k) :: words ps := rfl

@[simp] theorem words_ident (text : String) (ps : List Piece) :
    words (ident text :: ps) = Terminal.word (.name text) :: words ps := rfl

@[simp] theorem words_space (ps : List Piece) : words (.space :: ps) = words ps := rfl

@[simp] theorem words_break (ps : List Piece) : words (.break :: ps) = words ps := rfl

@[simp] theorem words_indent (ps : List Piece) : words (.indent :: ps) = words ps := rfl

@[simp] theorem words_dedent (ps : List Piece) : words (.dedent :: ps) = words ps := rfl

theorem words_spaced (rows : List (List Piece)) : words (spaced rows) = rows.flatMap words := by
  fun_induction spaced rows with
  | case1 => rfl
  | case2 row => simp
  | case3 row rows _ ih => simp [ih]

theorem words_enclosed (opening closing : Kind) (rows : List (List Piece)) :
    words (enclosed opening closing rows) =
      Terminal.word (.mark opening) :: (rows.flatMap words ++ [Terminal.word (.mark closing)]) := by
  simp [enclosed, words_spaced]

theorem words_flatMap_break (rows : List (List Piece)) :
    words (rows.flatMap (.break :: ·)) = rows.flatMap words := by
  induction rows with
  | nil => rfl
  | cons row rows ih => simp [ih]

theorem words_braced (rows : List (List Piece)) :
    words (braced rows) =
      Terminal.word (.mark .braceOpen) ::
        (rows.flatMap words ++ [Terminal.word (.mark .braceClose)]) := by
  cases rows with
  | nil => rfl
  | cons row rows =>
    have h := words_flatMap_break (row :: rows)
    simp only [braced, List.isEmpty_cons, Bool.false_eq_true, if_false, List.cons_append,
      words_mark, words_indent, words_append, h, words_dedent, words_break, words_nil]

end Piece

theorem words_namePieces (text : Option String) :
    Piece.words (namePieces text) = (nameYield text).map Terminal.word := by
  cases text <;> rfl

theorem words_annoStart (sort : Option Spread) :
    Piece.words (annoStart sort) = (annoStartYield sort).map Terminal.word := by
  cases sort <;> rfl

section

attribute [local simp] Piece.words_enclosed Piece.words_braced words_namePieces words_annoStart
  equalsPieces Terminal.within

mutual

/-- The words of a printed term, in every layout, spell its yield. -/
theorem Term.words_pieces (t : Term) : Piece.words t.pieces = t.yield.map Terminal.word := by
  cases t with
  | ident text => rfl
  | literal value => rfl
  | block body => simp [Term.pieces, Term.yield, words_termsPieces body]
  | generic params body =>
    simp [Term.pieces, Term.yield, words_paramsPieces params, body.words_pieces]
  | binding b => simp [Term.pieces, Term.yield, b.words_pieces]
  | forEach text source body =>
    simp [Term.pieces, Term.yield, source.words_pieces, words_termsPieces body]
  | forever body => simp [Term.pieces, Term.yield, words_termsPieces body]
  | forWhile condition body =>
    simp [Term.pieces, Term.yield, condition.words_pieces, words_termsPieces body]
  | signature sort text params => simp [Term.pieces, Term.yield, words_paramsPieces params]
  | record sort text fields => simp [Term.pieces, Term.yield, words_fieldsPieces fields]
  | trait text bindings => simp [Term.pieces, Term.yield, words_bindingsPieces bindings]
  | funType params result =>
    simp [Term.pieces, Term.yield, words_termsPieces params, result.words_pieces]
  | function params result body =>
    simp [Term.pieces, Term.yield, words_paramsPieces params, words_resultPieces result,
      body.words_pieces]
  | cases branches => simp [Term.pieces, Term.yield, words_branchesPieces branches]
  | spread sort operand => simp [Term.pieces, Term.yield, operand.words_pieces]
  | select target text => simp [Term.pieces, Term.yield, target.words_pieces]
  | apply sort target args =>
    simp [Term.pieces, Term.yield, target.words_pieces, words_argsPieces args]
  | applyNamed target fields =>
    simp [Term.pieces, Term.yield, target.words_pieces, words_fieldsPieces fields]
  | assign target value => simp [Term.pieces, Term.yield, target.words_pieces, value.words_pieces]

theorem words_termsPieces (ts : List Term) :
    (termsPieces ts).flatMap Piece.words = (termsYield ts).map Terminal.word := by
  cases ts with
  | nil => rfl
  | cons t ts => simp [termsPieces, termsYield, t.words_pieces, words_termsPieces ts]

theorem words_resultPieces (result : Option Term) :
    Piece.words (resultPieces result) = (resultYield result).map Terminal.word := by
  cases result with
  | none => rfl
  | some t => simp [resultPieces, resultYield, t.words_pieces]

theorem Anno.words_pieces (a : Anno) : Piece.words a.pieces = a.yield.map Terminal.word := by
  cases a with
  | mk sort type => simp [Anno.pieces, Anno.yield, type.words_pieces]

theorem words_annoPieces (anno : Option Anno) :
    Piece.words (annoPieces anno) = (annoYield anno).map Terminal.word := by
  cases anno with
  | none => rfl
  | some a => simp [annoPieces, annoYield, a.words_pieces]

theorem Param.words_pieces (p : Param) : Piece.words p.pieces = p.yield.map Terminal.word := by
  cases p with
  | mk text anno => simp [Param.pieces, Param.yield, words_annoPieces anno]

theorem words_paramsPieces (ps : List Param) :
    (paramsPieces ps).flatMap Piece.words = (paramsYield ps).map Terminal.word := by
  cases ps with
  | nil => rfl
  | cons p ps => simp [paramsPieces, paramsYield, p.words_pieces, words_paramsPieces ps]

theorem Field.words_pieces (f : Field) : Piece.words f.pieces = f.yield.map Terminal.word := by
  cases f with
  | given text anno value =>
    simp [Field.pieces, Field.yield, words_annoPieces anno, value.words_pieces]
  | shorthand text => rfl

theorem words_fieldsPieces (fs : List Field) :
    (fieldsPieces fs).flatMap Piece.words = (fieldsYield fs).map Terminal.word := by
  cases fs with
  | nil => rfl
  | cons f fs => simp [fieldsPieces, fieldsYield, f.words_pieces, words_fieldsPieces fs]

theorem Arg.words_pieces (a : Arg) : Piece.words a.pieces = a.yield.map Terminal.word := by
  cases a with
  | named field => simp [Arg.pieces, Arg.yield, field.words_pieces]
  | positional term => simp [Arg.pieces, Arg.yield, term.words_pieces]

theorem words_argsPieces (as : List Arg) :
    (argsPieces as).flatMap Piece.words = (argsYield as).map Terminal.word := by
  cases as with
  | nil => rfl
  | cons a as => simp [argsPieces, argsYield, a.words_pieces, words_argsPieces as]

theorem Body.words_pieces (b : Body) : Piece.words b.pieces = b.yield.map Terminal.word := by
  cases b with
  | block terms => simp [Body.pieces, Body.yield, words_termsPieces terms]
  | single term => simp [Body.pieces, Body.yield, term.words_pieces]

theorem Branch.words_pieces (b : Branch) : Piece.words b.pieces = b.yield.map Terminal.word := by
  cases b with
  | mk guard body => simp [Branch.pieces, Branch.yield, guard.words_pieces, body.words_pieces]

theorem words_branchesPieces (bs : List Branch) :
    (branchesPieces bs).flatMap Piece.words = (branchesYield bs).map Terminal.word := by
  cases bs with
  | nil => rfl
  | cons b bs => simp [branchesPieces, branchesYield, b.words_pieces, words_branchesPieces bs]

theorem Binding.words_pieces (b : Binding) :
    Piece.words b.pieces = b.yield.map Terminal.word := by
  cases b with
  | init text anno value =>
    simp [Binding.pieces, Binding.yield, words_annoPieces anno, value.words_pieces]
  | bare text => rfl

theorem words_bindingsPieces (bs : List Binding) :
    (bindingsPieces bs).flatMap Piece.words = (bindingsYield bs).map Terminal.word := by
  cases bs with
  | nil => rfl
  | cons b bs => simp [bindingsPieces, bindingsYield, b.words_pieces, words_bindingsPieces bs]

end

end

end TermLang
