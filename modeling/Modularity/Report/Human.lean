import Modularity.Report.Basic
import Modularity.Text.Blank
import Modularity.Text.Pieces

namespace Modularity

/-- A violation: its first line under a label, the other lines of its message, the module and the hint. -/
def Violation.human (v : Violation) : String :=
  let lines := Text.lines v.message
  v.severity.label ++ "[" ++ v.code ++ "]: " ++ lines.headD "" ++ "\n" ++
    String.join (lines.tail.map fun line ↦ "   | " ++ Text.trimStart line ++ "\n") ++
    (match v.module with
      | some module => "  --> module " ++ module ++ "\n"
      | none => "") ++
    match v.fixHint with
      | some hint => "   = fix: " ++ hint ++ "\n"
      | none => ""

def DependencySummary.human (s : DependencySummary) : String :=
  "  -> " ++ s.module ++ " " ++ s.kind.name ++ " x" ++ toString s.count ++ "\n"

/-- A module in short. The name is shown where it differs from the display name. -/
def ModuleSummary.human (s : ModuleSummary) : String :=
  s.displayName ++ " (" ++ s.space ++ ") [" ++ toString s.qualifying ++ " qualifying symbol(s)]\n" ++
    (if s.name = s.displayName then "" else "  name: " ++ s.name ++ "\n") ++
    "  interfaces: " ++ String.intercalate ", " s.interfaces ++ "\n" ++
    (if s.allowed.isEmpty then "" else "  allowed: " ++ String.intercalate ", " s.allowed ++ "\n") ++
    String.join (s.dependencies.map DependencySummary.human)

namespace Report

def humanModules (ms : List ModuleSummary) : String := String.join (ms.map ModuleSummary.human)

/-- The errors, the warnings and their numbers. A clean report is empty. -/
def human (r : Report) : String :=
  if r.isClean then ""
  else
    String.join ((r.errors ++ r.warnings).map Violation.human) ++
      "\n" ++ toString r.errors.length ++ " error(s), " ++ toString r.warnings.length ++
      " warning(s) in " ++ toString r.modules.length ++ " module(s)\n"

def json (r : Report) : String := r.toJson.prettyText

def jsonModules (ms : List ModuleSummary) : String :=
  (Json.arr (ms.map ModuleSummary.toJson)).prettyText

end Report

end Modularity
