import TermLang.Layout.Piece
import TermLang.Layout.Spelling
import TermLang.Term.Basic

/-!
# Printing terms

Every part of a term is printed as a row of pieces. A compact text puts a term on one line; a
pretty text puts every item of a braced body on a line of its own. A spread is printed with a space
after its mark, since two marks in a row would be read as one.
-/

namespace TermLang

open Piece

/-- The pieces of a name that may be left out, with the space after it. -/
def namePieces : Option String → List Piece
  | some name => [ident name, .space]
  | none => []

/-- The pieces that begin an annotation. -/
def annoStart : Option Spread → List Piece
  | none => [mark .colon, .space]
  | some sort => [mark .colon, .space, mark sort.mark, .space]

/-- An equals sign between spaces. -/
def equalsPieces : List Piece := [.space, mark .equals, .space]

mutual

/-- The pieces of a term. -/
def Term.pieces : Term → List Piece
  | .ident name => [.ident name]
  | .literal value => [.word value.word]
  | .block body => mark .kwBlock :: .space :: braced (termsPieces body)
  | .generic params body =>
    enclosed .bracketOpen .bracketClose (paramsPieces params) ++ body.pieces
  | .binding b => b.pieces
  | .forEach name source body =>
    mark .kwFor :: .space :: Piece.ident name :: .space :: mark .kwIn :: .space ::
      (source.pieces ++ .space :: braced (termsPieces body))
  | .forever body => mark .kwFor :: .space :: braced (termsPieces body)
  | .forWhile condition body =>
    mark .kwFor :: .space :: (condition.pieces ++ .space :: braced (termsPieces body))
  | .signature sort name params =>
    mark sort.keyword :: .space :: (namePieces name ++ braced (paramsPieces params))
  | .record sort name fields =>
    mark sort.keyword :: .space :: (namePieces name ++ braced (fieldsPieces fields))
  | .trait name bindings =>
    mark .kwTrait :: .space :: (namePieces name ++ braced (bindingsPieces bindings))
  | .funType params result =>
    enclosed .parenOpen .parenClose (termsPieces params) ++
      .space :: mark .arrow :: .space :: result.pieces
  | .function params result body =>
    enclosed .parenOpen .parenClose (paramsPieces params) ++ resultPieces result ++ body.pieces
  | .cases branches => mark .kwCase :: .space :: braced (branchesPieces branches)
  | .spread sort operand => mark sort.mark :: .space :: operand.pieces
  | .select target name => target.pieces ++ [mark .dot, Piece.ident name]
  | .apply sort target args =>
    target.pieces ++ enclosed sort.opening sort.closing (argsPieces args)
  | .applyNamed target fields =>
    target.pieces ++ enclosed .braceOpen .braceClose (fieldsPieces fields)
  | .assign target value => target.pieces ++ equalsPieces ++ value.pieces

/-- The pieces of each term. -/
def termsPieces : List Term → List (List Piece)
  | [] => []
  | t :: ts => t.pieces :: termsPieces ts

/-- The pieces of a result, if there is one. -/
def resultPieces : Option Term → List Piece
  | none => []
  | some t => .space :: mark .arrow :: .space :: t.pieces

/-- The pieces of an annotation. -/
def Anno.pieces : Anno → List Piece
  | .mk sort type => annoStart sort ++ type.pieces

/-- The pieces of an annotation, if there is one. -/
def annoPieces : Option Anno → List Piece
  | none => []
  | some a => a.pieces

/-- The pieces of a parameter. -/
def Param.pieces : Param → List Piece
  | .mk name anno => Piece.ident name :: annoPieces anno

/-- The pieces of each parameter. -/
def paramsPieces : List Param → List (List Piece)
  | [] => []
  | p :: ps => p.pieces :: paramsPieces ps

/-- The pieces of a field. -/
def Field.pieces : Field → List Piece
  | .given name anno value =>
    Piece.ident name :: (annoPieces anno ++ equalsPieces ++ value.pieces)
  | .shorthand name => [Piece.ident name]

/-- The pieces of each field. -/
def fieldsPieces : List Field → List (List Piece)
  | [] => []
  | f :: fs => f.pieces :: fieldsPieces fs

/-- The pieces of an argument. -/
def Arg.pieces : Arg → List Piece
  | .named field => field.pieces
  | .positional term => term.pieces

/-- The pieces of each argument. -/
def argsPieces : List Arg → List (List Piece)
  | [] => []
  | a :: as => a.pieces :: argsPieces as

/-- The pieces of a body, its arrow included. -/
def Body.pieces : Body → List Piece
  | .block terms => .space :: mark .fatArrow :: .space :: braced (termsPieces terms)
  | .single term => .space :: mark .fatArrow :: .space :: term.pieces

/-- The pieces of a branch. -/
def Branch.pieces : Branch → List Piece
  | .mk guard body => mark .kwWhen :: .space :: (guard.pieces ++ body.pieces)

/-- The pieces of each branch. -/
def branchesPieces : List Branch → List (List Piece)
  | [] => []
  | b :: bs => b.pieces :: branchesPieces bs

/-- The pieces of a binding. -/
def Binding.pieces : Binding → List Piece
  | .init name anno value =>
    mark .kwLet :: .space :: Piece.ident name :: (annoPieces anno ++ equalsPieces ++ value.pieces)
  | .bare name => [mark .kwLet, .space, Piece.ident name]

/-- The pieces of each binding. -/
def bindingsPieces : List Binding → List (List Piece)
  | [] => []
  | b :: bs => b.pieces :: bindingsPieces bs

end

/-- The text of a term in a layout. -/
def Term.layout (layout : Layout) (t : Term) : List Char := render layout 0 t.pieces

/-- A term on one line. -/
def Term.text (t : Term) : String := String.ofList (t.layout .compact)

namespace Program

/-- Each term on one line, with a line end between any two. -/
def compact (p : Program) : String :=
  "\n".intercalate (p.terms.map Term.text)

/-- Each term with a line end after it, the items of braced bodies on lines of their own. -/
def pretty (width : Nat) (p : Program) : String :=
  String.ofList (p.terms.flatMap fun t => t.layout (.pretty width) ++ ['\n'])

end Program

end TermLang
