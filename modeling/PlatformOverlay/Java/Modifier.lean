/-!
# Access levels and modifiers

A declaration carries each modifier keyword at most once, in the order written.
-/

namespace PlatformOverlay.Java

/-- Access levels, from the most to the least restrictive. -/
inductive Access where
  | priv
  | ofPackage
  | prot
  | pub
deriving DecidableEq, Repr, Inhabited

namespace Access

def rank : Access → Nat
  | .priv => 0
  | .ofPackage => 1
  | .prot => 2
  | .pub => 3

/-- Smaller means more restrictive. -/
instance : LT Access := ⟨fun a b ↦ a.rank < b.rank⟩

instance (a b : Access) : Decidable (a < b) := inferInstanceAs (Decidable (a.rank < b.rank))

end Access

inductive Modifier where
  | pub
  | prot
  | priv
  | static
  | final
  | abstract
  | native
  | synchronized
  | transient
  | volatile
  | strictfp
  | default
  | sealed
  | nonSealed
deriving DecidableEq, Repr, Inhabited

namespace Modifier

def keyword : Modifier → String
  | .pub => "public"
  | .prot => "protected"
  | .priv => "private"
  | .static => "static"
  | .final => "final"
  | .abstract => "abstract"
  | .native => "native"
  | .synchronized => "synchronized"
  | .transient => "transient"
  | .volatile => "volatile"
  | .strictfp => "strictfp"
  | .default => "default"
  | .sealed => "sealed"
  | .nonSealed => "non-sealed"

/-- The modifiers that are keywords of the language; `sealed` and `non-sealed` are
words that act as modifiers only in front of a declaration. -/
def reserved : List Modifier :=
  [.pub, .prot, .priv, .static, .final, .abstract, .native, .synchronized, .transient,
    .volatile, .strictfp, .default]

def all : List Modifier := reserved ++ [.sealed, .nonSealed]

def ofKeyword? (word : String) : Option Modifier := all.find? (·.keyword = word)

def access? : Modifier → Option Access
  | .pub => some .pub
  | .prot => some .prot
  | .priv => some .priv
  | _ => none

end Modifier

/-- The modifiers of a declaration, in source order and without repetition. -/
structure Modifiers where
  keywords : List Modifier
  nodup : keywords.Nodup
deriving DecidableEq, Repr

namespace Modifiers

def empty : Modifiers := ⟨[], .nil⟩

instance : Inhabited Modifiers := ⟨empty⟩

instance : Membership Modifier Modifiers := ⟨fun ms m ↦ m ∈ ms.keywords⟩

instance (m : Modifier) (ms : Modifiers) : Decidable (m ∈ ms) :=
  inferInstanceAs (Decidable (m ∈ ms.keywords))

/-- Add a modifier at the end unless it is there already. -/
def push (ms : Modifiers) (m : Modifier) : Modifiers :=
  if h : m ∈ ms.keywords then ms
  else ⟨ms.keywords ++ [m], by
    refine List.nodup_append.2 ⟨ms.nodup, by simp, fun a ha b hb ↦ ?_⟩
    obtain rfl := List.mem_singleton.1 hb
    exact fun e ↦ h (e ▸ ha)⟩

def ofList (ms : List Modifier) : Modifiers := ms.foldl push empty

def isEmpty (ms : Modifiers) : Bool := ms.keywords.isEmpty

/-- A modifier that is new is added at the end. -/
theorem keywords_push_of_not_mem {ms : Modifiers} {m : Modifier} (h : m ∉ ms) :
    (ms.push m).keywords = ms.keywords ++ [m] :=
  congrArg keywords (dif_neg h)

/-- The access level spelled out, if any; the first one counts. -/
def declaredAccess (ms : Modifiers) : Option Access := ms.keywords.findSome? Modifier.access?

def isStatic (ms : Modifiers) : Bool := .static ∈ ms

def isFinal (ms : Modifiers) : Bool := .final ∈ ms

end Modifiers

end PlatformOverlay.Java
