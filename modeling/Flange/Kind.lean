/-! # Kinds of symbols, equations and ports -/

namespace Flange

/-- How a symbol is treated in connections and in simplification. -/
inductive SymKind
  | flow | pot | param | inp | outp | var
  deriving DecidableEq, Repr, Inhabited

namespace SymKind

def name : SymKind → String
  | flow => "flow" | pot => "pot" | param => "param" | inp => "inp" | outp => "outp" | var => "var"

def all : List SymKind := [flow, pot, param, inp, outp, var]

def ofName? (s : String) : Option SymKind := all.find? fun k => k.name == s

def qualified (k : SymKind) : String := "SymKind." ++ k.name

end SymKind

/-- Where an equation comes from. -/
inductive EqnKind
  | pot | flow | comp | outp
  deriving DecidableEq, Repr, Inhabited

namespace EqnKind

def name : EqnKind → String
  | pot => "pot" | flow => "flow" | comp => "comp" | outp => "outp"

def ofName? (s : String) : Option EqnKind := [pot, flow, comp, outp].find? fun k => k.name == s

end EqnKind

/-- Physical domains of ports. -/
inductive Domain
  | rotational | translational
  deriving DecidableEq, Repr, Inhabited

namespace Domain

def name : Domain → String
  | rotational => "rotational" | translational => "translational"

def ofName? (s : String) : Option Domain :=
  [rotational, translational].find? fun d => d.name == s

end Domain

/-- The end of a component that a port sits on. -/
inductive Orientation
  | a | b
  deriving DecidableEq, Repr, Inhabited

namespace Orientation

def name : Orientation → String
  | a => "a" | b => "b"

def ofName? (s : String) : Option Orientation := [a, b].find? fun o => o.name == s

end Orientation

end Flange
