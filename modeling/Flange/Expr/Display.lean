import Flange.Expr.Basic

/-! # Readable expressions -/

namespace Flange

namespace Fn

def name : Fn → String
  | sin => "sin" | cos => "cos" | tanh => "tanh" | exp => "exp" | log => "log" | abs => "abs"
  | sign => "sign" | impulse k => "impulse" ++ toString k

end Fn

namespace Expr

def displayRat (q : Rat) : String :=
  if q.den = 1 then toString q.num else toString q.num ++ "/" ++ toString q.den

def parenthesized (b : Bool) (s : String) : String := if b then "(" ++ s ++ ")" else s

def display : Expr → String
  | num q => displayRat q
  | sym s => s.display
  | sum a b => display a ++ " + " ++ display b
  | prod a b => parenthesized (a.rank == 7) (display a) ++ "*" ++
      parenthesized (b.rank == 7) (display b)
  | power a q => parenthesized (a.rank == 6 || a.rank == 7) (display a) ++ "**" ++
      parenthesized (q.den != 1 || q < 0) (displayRat q)
  | fn f a => f.name ++ "(" ++ display a ++ ")"
  | sat a => "sat(" ++ display a ++ ")"
  | gate a b => "gate(" ++ display a ++ ", " ++ display b ++ ")"
  | raised a b => "(" ++ display a ++ ")**(" ++ display b ++ ")"

end Expr

end Flange
