import DrawPlus.Tree.Node
import DrawPlus.Token.Basic

/-!
# The grammar

The rules by which lists of tokens derive program trees, one inductive relation for each part of
the language. `Sum ts n` says that the tokens `ts` derive the tree `n` as an expression, and so on.
The rules are left-recursive where operators group to the left, they do not look ahead, and they
say nothing about how a reader of tokens finds a derivation.

The closing token of a list takes no part in a derivation. What may be done with the two names that
size the window is a parameter of the grammar (`NameRule`), since the rest of the grammar treats
all names alike.
-/

namespace DrawPlus

/-- What a grammar lets programs do with names. -/
structure NameRule where
  /-- the names with which a statement may begin -/
  begins : Value → Prop
  /-- the types and initial values with which a name may be declared -/
  declares : Kind → Value → Node → Prop

namespace NameRule

/-- All names are alike. -/
def free : NameRule := ⟨fun _ => True, fun _ _ _ => True⟩

/-- The two names that size the window. -/
def IsWindow (name : Value) : Prop := name = "windowWidth" ∨ name = "windowHeight"

/-- No statement begins with a window dimension, and a window dimension is declared as an integer;
one that is declared with a literal is declared with a number from 340 to 1000. -/
def window : NameRule where
  begins name := ¬IsWindow name
  declares type name init := IsWindow name → type = .int ∧
    ∀ v, init = .number v → v.below? 340 = some false ∧ v.above? 1000 = some false

end NameRule

namespace Grammar

/-! ## Expressions -/

mutual

inductive Sum : List Token → Node → Prop
  | product {ts : List Token} {n : Node} : Product ts n → Sum ts n
  | more {ts us : List Token} {op : Token} {l r : Node} : Sum ts l →
      op.kind ∈ [Kind.plus, .minus] → Product us r → Sum (ts ++ op :: us) (.binary l op.kind r)

inductive Product : List Token → Node → Prop
  | factor {ts : List Token} {n : Node} : Factor ts n → Product ts n
  | more {ts us : List Token} {op : Token} {l r : Node} : Product ts l →
      op.kind ∈ [Kind.times, .slash, .modulo] → Factor us r →
      Product (ts ++ op :: us) (.binary l op.kind r)

inductive Factor : List Token → Node → Prop
  | number {t : Token} : t.kind = .number → Factor [t] (.number t.value)
  | truth {t : Token} : t.kind = .boolValue → Factor [t] (.truth t.value)
  | hue {t : Token} {h : Hue} : t.kind = .hue h → Factor [t] (.color t.value none)
  | mixed {w a c d z : Token} {rs gs bs : List Token} {r g b : Node} : w.kind = .rgb →
      a.kind = .leftParen → Sum rs r → c.kind = .comma → Sum gs g → d.kind = .comma → Sum bs b →
      z.kind = .rightParen →
      Factor (w :: a :: (rs ++ c :: (gs ++ d :: (bs ++ [z])))) (.color .absent (some [r, g, b]))
  | variable {t : Token} : t.kind = .identifier → Factor [t] (.variable t.value)
  | group {a z : Token} {ts : List Token} {n : Node} : a.kind = .leftParen → Sum ts n →
      z.kind = .rightParen → Factor (a :: (ts ++ [z])) n

end

inductive Condition : List Token → Node → Prop
  | sum {ts : List Token} {n : Node} : Sum ts n → Condition ts n
  | comparison {ts us : List Token} {op : Token} {l r : Node} : Sum ts l →
      op.kind.isComparison = true → Sum us r → Condition (ts ++ op :: us) (.binary l op.kind r)

inductive Guarded : List Token → Node → Prop
  | intro {a z : Token} {ts : List Token} {n : Node} : a.kind = .leftParen → Condition ts n →
      z.kind = .rightParen → Guarded (a :: (ts ++ [z])) n

/-! ## Statements without a body -/

/-- The operators that compute and assign, with what they compute. -/
inductive Compound : Kind → Kind → Prop
  | plus : Compound .plusEqual .plus
  | minus : Compound .minusEqual .minus
  | times : Compound .timesEqual .times
  | slash : Compound .slashEqual .slash

/-- Assignments, without the semicolon that may close them. The right side of a compound
assignment is kept whole. -/
inductive Assignment : List Token → Node → Prop
  | plain {x a : Token} {ts : List Token} {n : Node} : x.kind = .identifier → a.kind = .assign →
      Sum ts n → Assignment (x :: a :: ts) (.assign x.value n)
  | compound {x a : Token} {ts : List Token} {n : Node} {op : Kind} : x.kind = .identifier →
      Compound a.kind op → Sum ts n →
      Assignment (x :: a :: ts) (.assign x.value (.binary (.variable x.value) op n))

inductive Declaration (R : NameRule) : List Token → Node → Prop
  | intro {v t x a z : Token} {ts : List Token} {n : Node} : v.kind = .var →
      t.kind ∈ [Kind.int, .float, .bool, .color] → x.kind = .identifier → a.kind = .assign →
      Sum ts n → R.declares t.kind x.value n → z.kind = .semicolon →
      Declaration R (v :: t :: x :: a :: (ts ++ [z])) (.varDecl (some t.kind) x.value n)

inductive Creation : List Token → Node → Prop
  | intro {w x a k p c q z : Token} {us vs : List Token} {m n : Node} : w.kind = .cursor →
      x.kind = .identifier → a.kind = .assign → k.kind = .createCursor → p.kind = .leftParen →
      Sum us m → c.kind = .comma → Sum vs n → q.kind = .rightParen → z.kind = .semicolon →
      Creation (w :: x :: a :: k :: p :: (us ++ c :: (vs ++ [q, z])))
        (.cursorCreation x.value m n)

inductive Listed : List Token → List Node → Prop
  | one {ts : List Token} {n : Node} : Sum ts n → Listed ts [n]
  | more {ts us : List Token} {c : Token} {n : Node} {ns : List Node} : Sum ts n →
      c.kind = .comma → Listed us ns → Listed (ts ++ c :: us) (n :: ns)

inductive Arguments : List Token → List Node → Prop
  | none : Arguments [] []
  | some {ts : List Token} {ns : List Node} : Listed ts ns → Arguments ts ns

/-- The methods that draw a shape. -/
def drawing : List Kind :=
  [.drawLine, .drawRectangle, .drawCircle, .drawTriangle, .drawEllipse]

/-- The methods that change a cursor. -/
def changing : List Kind :=
  [.color, .thickness, .move, .rotate, .visible]

inductive Call : List Token → Node → Prop
  | draw {x d m p q z : Token} {ts : List Token} {ns : List Node} : x.kind = .identifier →
      d.kind = .dot → m.kind ∈ drawing → p.kind = .leftParen → Arguments ts ns →
      q.kind = .rightParen → z.kind = .semicolon →
      Call (x :: d :: m :: p :: (ts ++ [q, z])) (.drawCommand x.value m.value ns)
  | change {x d m p q z : Token} {ts : List Token} {ns : List Node} : x.kind = .identifier →
      d.kind = .dot → m.kind ∈ changing → p.kind = .leftParen → Arguments ts ns →
      q.kind = .rightParen → z.kind = .semicolon →
      Call (x :: d :: m :: p :: (ts ++ [q, z])) (.cursorMethod x.value m.value ns)

/-! ## Statements with a body -/

/-- The first part of the header of a loop over a range. -/
inductive Start (R : NameRule) : List Token → Node → Prop
  | declaration {ts : List Token} {n : Node} : Declaration R ts n → Start R ts n
  | assignment {ts : List Token} {z : Token} {n : Node} : Assignment ts n →
      z.kind = .semicolon → Start R (ts ++ [z]) n

mutual

inductive Statement (R : NameRule) : List Token → Node → Prop
  | declaration {ts : List Token} {n : Node} : Declaration R ts n → Statement R ts n
  | creation {ts : List Token} {n : Node} : Creation ts n → Statement R ts n
  | assignment {x z : Token} {ts : List Token} {n : Node} : Assignment (x :: ts) n →
      R.begins x.value → z.kind = .semicolon → Statement R (x :: (ts ++ [z])) n
  | call {x : Token} {ts : List Token} {n : Node} : Call (x :: ts) n → R.begins x.value →
      Statement R (x :: ts) n
  | branch {w z : Token} {cs bs as os : List Token} {test : Node} {body : List Node}
      {arms : List (Node × List Node)} {otherwise : Option (List Node)} : w.kind = .ifWord →
      Guarded cs test → Block R bs body → Arms R as arms → Otherwise R os otherwise →
      z.kind = .semicolon →
      Statement R (w :: (cs ++ (bs ++ (as ++ (os ++ [z]))))) (.branch test body arms otherwise)
  | forLoop {w p s q z : Token} {is cs us bs : List Token} {init test update : Node}
      {body : List Node} : w.kind = .forWord → p.kind = .leftParen → Start R is init →
      Condition cs test → s.kind = .semicolon → Assignment us update → q.kind = .rightParen →
      Block R bs body → z.kind = .semicolon →
      Statement R (w :: p :: (is ++ (cs ++ s :: (us ++ q :: (bs ++ [z])))))
        (.forLoop init test update body)
  | whileLoop {w z : Token} {cs bs : List Token} {test : Node} {body : List Node} :
      w.kind = .whileWord → Guarded cs test → Block R bs body → z.kind = .semicolon →
      Statement R (w :: (cs ++ (bs ++ [z]))) (.whileLoop test body)

inductive Statements (R : NameRule) : List Token → List Node → Prop
  | nil : Statements R [] []
  | cons {ts us : List Token} {n : Node} {ns : List Node} : Statement R ts n →
      Statements R us ns → Statements R (ts ++ us) (n :: ns)

inductive Block (R : NameRule) : List Token → List Node → Prop
  | intro {a z : Token} {ts : List Token} {ns : List Node} : a.kind = .leftBrace →
      Statements R ts ns → z.kind = .rightBrace → Block R (a :: (ts ++ [z])) ns

inductive Arms (R : NameRule) : List Token → List (Node × List Node) → Prop
  | nil : Arms R [] []
  | cons {w : Token} {cs bs as : List Token} {test : Node} {body : List Node}
      {arms : List (Node × List Node)} : w.kind = .elifWord → Guarded cs test → Block R bs body →
      Arms R as arms → Arms R (w :: (cs ++ (bs ++ as))) ((test, body) :: arms)

inductive Otherwise (R : NameRule) : List Token → Option (List Node) → Prop
  | none : Otherwise R [] .none
  | some {w : Token} {bs : List Token} {body : List Node} : w.kind = .elseWord →
      Block R bs body → Otherwise R (w :: bs) (.some body)

end

end Grammar

end DrawPlus
