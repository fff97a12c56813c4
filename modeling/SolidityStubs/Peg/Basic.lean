import SolidityStubs.Text.Span

/-! # Parsing expression grammars

A grammar gives each rule an expression over characters, literal texts and other rules. Choice is
ordered and repetition takes as much as it can. A rule is structured, atomic or silent:
between the parts of a structured rule the grammar skips what it regards as padding, an atomic rule
skips nothing and shows no inner structure, and a silent rule leaves no node of its own.
-/
namespace SolidityStubs.Peg

/-- A position in a text: the bytes before it and the characters from it on. -/
structure Cursor where
  offset : Nat
  rest : List Char
deriving DecidableEq, Repr

namespace Cursor

def ofText (cs : List Char) : Cursor := ⟨0, cs⟩

def char? (accept : Char → Bool) : Cursor → Option Cursor
  | ⟨_, []⟩ => none
  | ⟨n, c :: cs⟩ => if accept c then some ⟨n + c.utf8Size, cs⟩ else none

def text? : List Char → Cursor → Option Cursor
  | [], c => some c
  | _ :: _, ⟨_, []⟩ => none
  | a :: as, ⟨n, c :: cs⟩ => if a == c then text? as ⟨n + c.utf8Size, cs⟩ else none

def upTo (start stop : Cursor) : List Char :=
  Text.takeBytes (stop.offset - start.offset) start.rest

end Cursor

/-- An expression over the rules `ρ`. `never` looks ahead: it passes nothing and succeeds where its
expression fails. -/
inductive Expr (ρ : Type)
  | char (accept : Char → Bool)
  | text (cs : List Char)
  | seq (first second : Expr ρ)
  | choice (first second : Expr ρ)
  | maybe (body : Expr ρ)
  | many (body : Expr ρ)
  | never (body : Expr ρ)
  | rule (r : ρ)

namespace Expr

variable {ρ : Type}

def literal (s : String) : Expr ρ := .text s.toList

def anyChar : Expr ρ := .char fun _ => true

def all : List (Expr ρ) → Expr ρ
  | [] => .text []
  | [e] => e
  | e :: es => .seq e (all es)

def any : List (Expr ρ) → Expr ρ
  | [] => .never (.text [])
  | [e] => e
  | e :: es => .choice e (any es)

def separated (item separator : Expr ρ) : Expr ρ :=
  .seq item (.many (.seq separator item))

end Expr

inductive Shape
  | structured
  | atomic
  | silent
deriving DecidableEq, Repr

structure Production (ρ : Type) where
  shape : Shape
  body : Expr ρ

structure Grammar (ρ : Type) where
  /-- Passes the padding at a position. -/
  skip : Cursor → Cursor
  production : ρ → Production ρ

/-- What a rule matched: where it starts and stops and the nodes inside it. -/
structure Node (ρ : Type) where
  rule : ρ
  start : Cursor
  stop : Cursor
  children : List (Node ρ)

namespace Node

variable {ρ : Type}

def span (n : Node ρ) : Span := ⟨n.start.offset, n.stop.offset⟩

def text (n : Node ρ) : List Char := n.start.upTo n.stop

def string (n : Node ρ) : String := String.ofList n.text

variable [DecidableEq ρ]

def child? (n : Node ρ) (r : ρ) : Option (Node ρ) := n.children.find? (·.rule = r)

def childrenOf (n : Node ρ) (r : ρ) : List (Node ρ) := n.children.filter (·.rule = r)

end Node

end SolidityStubs.Peg
