import KrabkaRegistry.Store.State

/-!
# The Compatibility Engine

`compat/mod.rs`: the effective level of a subject picks the directions and the set of
versions, and the per-format check decides each pair.
-/

namespace KrabkaRegistry.Compat

open KrabkaRegistry.Format (Formats)
open KrabkaRegistry.Store (StoreState)

/-- Confluent compatibility levels. -/
inductive CompatibilityLevel where
  | none
  | backward
  | backwardTransitive
  | forward
  | forwardTransitive
  | full
  | fullTransitive
  deriving DecidableEq, Repr

/-- One directional check. -/
inductive Direction where
  /-- reader = candidate (new), writer = existing (old). -/
  | newReadsOld
  /-- reader = existing (old), writer = candidate (new). -/
  | oldReadsNew
  deriving DecidableEq, Repr

namespace CompatibilityLevel

/-- Parse a compatibility level without applying a fallback. -/
def tryParse (s : String) : Option CompatibilityLevel :=
  if s = "NONE" then some none
  else if s = "BACKWARD" then some backward
  else if s = "BACKWARD_TRANSITIVE" then some backwardTransitive
  else if s = "FORWARD" then some forward
  else if s = "FORWARD_TRANSITIVE" then some forwardTransitive
  else if s = "FULL" then some full
  else if s = "FULL_TRANSITIVE" then some fullTransitive
  else Option.none

/-- Parse a stored level; an unknown string falls back to `BACKWARD`. -/
def parse (s : String) : CompatibilityLevel := (tryParse s).getD backward

def isTransitive : CompatibilityLevel → Bool
  | backwardTransitive | forwardTransitive | fullTransitive => true
  | _ => false

def directions : CompatibilityLevel → List Direction
  | none => []
  | backward | backwardTransitive => [.newReadsOld]
  | forward | forwardTransitive => [.oldReadsNew]
  | full | fullTransitive => [.newReadsOld, .oldReadsNew]

end CompatibilityLevel

variable (F : Formats)

/-- The per-subject override when set, and the global level otherwise. -/
def effectiveLevel (snap : StoreState) (subject : String) : CompatibilityLevel :=
  CompatibilityLevel.parse (snap.subjectCompat[subject]?.getD snap.globalCompatLevel)

/-- The check of one pair in one direction. -/
def checkDirection (ty : SchemaType) (candidate : String)
    (candidateRefs : List ResolvedReference) (existing : String)
    (existingRefs : List ResolvedReference) : Direction → Except (List String) Unit
  | .newReadsOld => F.check ty candidate existing candidateRefs existingRefs
  | .oldReadsNew => F.check ty existing candidate existingRefs candidateRefs

/-- The failure messages of one existing version in the given directions. -/
def checkPair (ty : SchemaType) (candidate : String) (candidateRefs : List ResolvedReference)
    (existing : String) (existingRefs : List ResolvedReference) (dirs : List Direction) :
    List String :=
  dirs.flatMap fun dir =>
    match checkDirection F ty candidate candidateRefs existing existingRefs dir with
    | .ok () => []
    | .error messages => messages

/-- The versions a registration is compared with: all of them under a transitive level,
else the last one. -/
def targets (level : CompatibilityLevel)
    (versions : List (SchemaType × String × List SchemaReference)) :
    List (SchemaType × String × List SchemaReference) :=
  if level.isTransitive then versions else versions.drop (versions.length - 1)

/-- Enforcement on register.  A stored version whose closure no longer resolves is
compared without its references. -/
def checkRegistration (snap : StoreState) (subject : String) (ty : SchemaType)
    (candidate : String) (candidateRefs : List ResolvedReference) : Result Unit :=
  let level := effectiveLevel snap subject
  let dirs := level.directions
  if dirs.isEmpty then .ok ()
  else
    let messages := (targets level (snap.versionsSchemas subject)).flatMap fun v =>
      let existingResolved := (snap.resolveClosure v.2.2).toOption.getD []
      checkPair F ty candidate candidateRefs v.2.1 existingResolved dirs
    if messages.isEmpty then .ok () else .error (.error (.incompatible messages))

/-- What a `/compatibility` query answers. -/
structure Verdict where
  isCompatible : Bool
  messages : List String
  deriving DecidableEq, Repr

/-- `check_against_version`: the candidate against one live version, the latest for `none`. -/
def checkAgainstVersion (snap : StoreState) (subject : String) (ty : SchemaType)
    (candidate : String) (candidateRefs : List ResolvedReference)
    (version : Option SchemaVersion) : Result Verdict :=
  if (snap.versions subject false).isNone then .error (.error (.subjectNotFound subject))
  else
    match snap.version subject version false with
    | none => .error (.error .versionNotFound)
    | some existing =>
      let dirs := (effectiveLevel snap subject).directions
      if dirs.isEmpty then .ok ⟨true, []⟩
      else
        let existingResolved := (snap.resolveClosure existing.references).toOption.getD []
        let messages :=
          checkPair F ty candidate candidateRefs existing.schema existingResolved dirs
        .ok ⟨messages.isEmpty, messages⟩

/-! ## Pairs without a message -/

variable {F}

theorem checkPair_eq_nil_iff {ty : SchemaType} {candidate existing : String}
    {candidateRefs existingRefs : List ResolvedReference} {dirs : List Direction} :
    checkPair F ty candidate candidateRefs existing existingRefs dirs = [] ↔
      ∀ dir ∈ dirs,
        checkDirection F ty candidate candidateRefs existing existingRefs dir = .ok () := by
  rw [checkPair, List.flatMap_eq_nil_iff]
  apply forall₂_congr
  intro dir _
  cases hc : checkDirection F ty candidate candidateRefs existing existingRefs dir with
  | ok u => simp
  | error messages =>
    -- A refusal says why.
    have hmessages : messages ≠ [] := by
      cases dir with
      | newReadsOld => exact F.check_error hc
      | oldReadsNew => exact F.check_error hc
    simpa using hmessages

end KrabkaRegistry.Compat
