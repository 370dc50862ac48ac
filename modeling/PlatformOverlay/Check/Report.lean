/-!
# Reports

Findings are grouped by kind, in the order of the kinds, and under each kind by class,
in the order in which the classes first came up.
-/

namespace PlatformOverlay.Check

inductive ReportKind where
  | missingMembers
  | unreachableMembers
  | moreRestrictiveAccess
  | accessKindMismatch
  | missingOverwrites
deriving DecidableEq, Repr

namespace ReportKind

def all : List ReportKind :=
  [.missingMembers, .unreachableMembers, .moreRestrictiveAccess, .accessKindMismatch,
    .missingOverwrites]

def rank : ReportKind → Nat
  | .missingMembers => 0
  | .unreachableMembers => 1
  | .moreRestrictiveAccess => 2
  | .accessKindMismatch => 3
  | .missingOverwrites => 4

def header : ReportKind → String
  | .missingMembers => "Missing members"
  | .unreachableMembers => "Unreachable members"
  | .moreRestrictiveAccess => "More restrictive access"
  | .accessKindMismatch => "Static or instance mismatch"
  | .missingOverwrites => "Missing overwrites"

def ofHeader? (header : String) : Option ReportKind := all.find? (·.header = header)

theorem rank_injective {a b : ReportKind} (h : a.rank = b.rank) : a = b := by
  cases a <;> cases b <;> first | rfl | exact absurd h (by decide)

end ReportKind

/-- The members that were found wanting in one class. -/
structure ClassFindings where
  className : String
  members : List String
deriving DecidableEq, Repr

structure Section where
  kind : ReportKind
  classes : List ClassFindings
deriving DecidableEq, Repr

/-- Add a member to a class, behind the classes that are there if it is new. -/
def addToClasses (className member : String) : List ClassFindings → List ClassFindings
  | [] => [⟨className, [member]⟩]
  | c :: cs =>
      if c.className = className then { c with members := c.members ++ [member] } :: cs
      else c :: addToClasses className member cs

/-- Add a member to the section of a kind, which is put in its place if it is new. -/
def addToSections (kind : ReportKind) (className member : String) : List Section → List Section
  | [] => [⟨kind, [⟨className, [member]⟩]⟩]
  | s :: ss =>
      if s.kind = kind then { s with classes := addToClasses className member s.classes } :: ss
      else if kind.rank < s.kind.rank then ⟨kind, [⟨className, [member]⟩]⟩ :: s :: ss
      else s :: addToSections kind className member ss

structure Report where
  sections : List Section
deriving DecidableEq, Repr

namespace Report

def empty : Report := ⟨[]⟩

def add (report : Report) (kind : ReportKind) (className member : String) : Report :=
  ⟨addToSections kind className member report.sections⟩

/-- Add several members of one class. -/
def addAll (report : Report) (kind : ReportKind) (className : String) (members : List String) :
    Report :=
  members.foldl (fun r m ↦ r.add kind className m) report

def kinds (report : Report) : List ReportKind := report.sections.map Section.kind

def findings (report : Report) (kind : ReportKind) : List ClassFindings :=
  ((report.sections.find? (·.kind = kind)).map Section.classes).getD []

def classes (report : Report) (kind : ReportKind) : List String :=
  (report.findings kind).map ClassFindings.className

def members (report : Report) (kind : ReportKind) (className : String) : List String :=
  (((report.findings kind).find? (·.className = className)).map ClassFindings.members).getD []

def size (report : Report) : Nat :=
  report.sections.foldl (fun n s ↦ s.classes.foldl (fun n c ↦ n + c.members.length) n) 0

def isEmpty (report : Report) : Bool := report.sections.isEmpty

end Report

/-! ## Texts -/

/-- The lines for one class, without line ends. -/
def ClassFindings.lines (kind : ReportKind) (project : String) (c : ClassFindings) :
    List String :=
  (kind.header ++ " in '" ++ project ++ "' @ " ++ c.className) :: c.members.map (" * " ++ ·)

/-- Each class is preceded by an empty line. -/
def Section.render (project : String) (s : Section) : String :=
  String.intercalate "\n" (s.classes.flatMap fun c ↦ "" :: c.lines s.kind project)

/-- One text for each section. -/
def Report.render (report : Report) (project : String) : List String :=
  report.sections.map (·.render project)

/-- Red on a terminal. -/
def red (text : String) : String := "\x1b[31m" ++ text ++ "\x1b[0m"

end PlatformOverlay.Check
