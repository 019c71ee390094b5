import PocketCalculator.Text

/-! # The installation

The files that must lie beside the calculator, and what is said when some are missing. -/

namespace PocketCalculator.Installation

/-- The files that are needed, in the order in which they are checked. -/
def requiredFiles : List String :=
  ["Calculator.py", "InputEngine.py", "MathEngine.py", "ScientificEngine.py", "config_manager.py",
   "config.json", "ui_strings.json"]

/-- The files that are missing. -/
def missing (present : List String) : List String :=
  requiredFiles.filter fun file => !present.contains file

/-- The lines that name the missing files. -/
def report (files : List String) : String :=
  "Error: The following files are missing or in the wrong location:\n" ++
    String.join (files.map fun file => "- " ++ file ++ "\n")

/-- What is said about the files present, and the exit code when the calculator cannot start. -/
def check (present : List String) : String × Option Nat :=
  match missing present with
  | [] => ("", none)
  | files => (report files, some 1)

end PocketCalculator.Installation
