import Flange.Number.Decimal
import Flange.Text.Quoted

/-! # Log lines

What a stage reports: a level, a text and named values in a fixed order. A value named again keeps
its first position.
-/

namespace Flange

inductive LogValue
  | none
  | flag (b : Bool)
  | number (d : Decimal)
  | text (s : String)
  | list (vs : List LogValue)
  deriving Repr, Inhabited

namespace LogValue

def count (n : Nat) : LogValue := number (Decimal.whole n)

mutual

/-- Inside a list, texts are quoted. -/
def nested : LogValue → String
  | none => "None"
  | flag b => if b then "True" else "False"
  | number d => d.render
  | text s => Quoted.quote s
  | list vs => "[" ++ ", ".intercalate (nestedAll vs) ++ "]"

def nestedAll : List LogValue → List String
  | [] => []
  | v :: vs => nested v :: nestedAll vs

end

def render : LogValue → String
  | text s => s
  | v => v.nested

end LogValue

abbrev LogContext := List (String × LogValue)

namespace LogContext

def set (c : LogContext) (k : String) (v : LogValue) : LogContext :=
  match c with
  | [] => [(k, v)]
  | (j, w) :: rest => if j = k then (k, v) :: rest else (j, w) :: set rest k v

/-- Adds the name and template of a component. -/
def ofComponent (c : LogContext) (name template : String) : LogContext :=
  (c.set "component" (.text name)).set "template" (.text template)

def render (c : LogContext) : String :=
  String.join (c.map fun (k, v) => " " ++ k ++ "=" ++ v.render)

end LogContext

abbrev LogLevel := Nat

namespace LogLevel

def debug : LogLevel := 10

def info : LogLevel := 20

def warning : LogLevel := 30

/-- The least level that is kept; a log without a level of its own keeps warnings. -/
def threshold (l : LogLevel) : LogLevel := if l = 0 then warning else l

/-- Levels between the named ones are shown by number. -/
def name (l : LogLevel) : String :=
  match [(0, "NOTSET"), (10, "DEBUG"), (20, "INFO"), (30, "WARNING"), (40, "ERROR"),
      (50, "CRITICAL")].lookup l with
  | some n => n
  | none => "Level " ++ toString l

end LogLevel

structure LogLine where
  level : LogLevel
  text : String
  context : LogContext := []
  deriving Repr, Inhabited

namespace LogLine

/-- Level, text and context. -/
def render (l : LogLine) : String := l.level.name ++ " " ++ l.text ++ l.context.render

/-- The line as it stands in a log file. -/
def renderInFile (l : LogLine) : String := "acausal:" ++ l.render

/-- Name, level and text of the line put into a format; the context is left out. -/
def renderAs (format : String) (l : LogLine) : String :=
  ((format.replace "%(name)s" "acausal").replace "%(levelname)s" l.level.name).replace
    "%(message)s" l.text

def atLeast (level : LogLevel) (ls : List LogLine) : List LogLine :=
  ls.filter fun l => level.threshold ≤ l.level

def entering (stage : String) : LogLine := ⟨.debug, s!"*** Entering {stage} ***", []⟩

def exiting (stage : String) : LogLine := ⟨.debug, s!"*** Exiting {stage} ***", []⟩

end LogLine

end Flange
