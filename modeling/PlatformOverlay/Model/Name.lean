/-!
# Names of types

A qualified name is the package, a dot and the names of the enclosing types from the
outermost in, with dollar signs between them.
-/

namespace PlatformOverlay.Model

def qualify (package : Option String) (name : String) : String :=
  match package with
  | some package => package ++ "." ++ name
  | none => name

def nestedName (outer name : String) : String := outer ++ "$" ++ name

/-- What follows `lead` in a text that starts with it. -/
def dropLead? (lead text : String) : Option String :=
  if lead.toList.isPrefixOf text.toList then some (String.ofList (text.toList.drop lead.length))
  else none

/-- A qualified name without its package. -/
def relativeName (qualified : String) (package : Option String) : String :=
  (package.bind fun p ↦ dropLead? (p ++ ".") qualified).getD qualified

theorem dropLead?_append (lead text : String) : dropLead? lead (lead ++ text) = some text := by
  simp [dropLead?, String.toList_append, ← String.length_toList]

/-- A qualified name without its package is the name. -/
theorem relativeName_qualify (package : Option String) (name : String) :
    relativeName (qualify package name) package = name := by
  cases package <;> simp [relativeName, qualify, dropLead?_append]

end PlatformOverlay.Model
