import Mathlib.Init

/-!
# Errors

`error_t *` is a pointer that is `NULL` on success, so a fallible operation of
the source returns `Option Error` here. The tree below is what the constructors
of `error.c` build; the backtraces are left out.

The functions that are given errors have the answer of `malloc` as their last
argument. Without memory they free these errors and return the sentinel, so that
the result is `NULL` exactly if it is with memory. Callers that only test for
`NULL` leave the answer at `true`, and the other objects are made as if there were
memory for them.
-/

namespace PosixThreads

/-- The codes of `common_error_code_t` that the modelled functions return. -/
inductive CommonErrorCode
  | memoryAllocationFailure
  | notFound
  | fileError
  | unexpectedEof
  | malformedNumber
  | numberTooLarge
  deriving DecidableEq, Repr

/-- An error object. `sentinel` stands in for one that there was no memory for, `fromCstr` is
`error_from_cstr` without a source and `wrap` is the same with one; `okIf` carries the text of the
failed expression. -/
inductive Error
  | sentinel
  | fromCommon (code : CommonErrorCode)
  | fromPosix (call : String)
  | fromCstr (str : String)
  | okIf (expr : String)
  | wrap (str : String) (source : Error)
  | combined (primary secondary : Error)
  deriving DecidableEq, Repr

/-- Without memory the source is freed, and the sentinel is returned. -/
def errorFromCstr (str : String) (source : Option Error) (alloc : Bool := true) : Error :=
  if alloc then source.elim (.fromCstr str) (.wrap str) else .sentinel

/-- `error_wrap`: a missing source stays missing. The answer of `malloc` is left out by those who
only look whether there is an error. -/
def errorWrap (str : String) (source : Option Error) (alloc : Bool := true) : Option Error :=
  source.map fun source => errorFromCstr str (some source) alloc

/-- `error_combine`: the primary error comes first if both are present. Without memory both are
freed. -/
def errorCombine (primary secondary : Option Error) (alloc : Bool := true) : Option Error :=
  match primary, secondary with
  | none, secondary => secondary
  | some primary, none => some primary
  | some primary, some secondary =>
      some (if alloc then .combined primary secondary else .sentinel)

/-- The answers of `malloc` in `error_wrap` and in `error_combine`. -/
structure ErrorMemory where
  wrap : Bool
  combine : Bool

def okIf (success : Bool) (expr : String) : Option Error :=
  if success then none else some (.okIf expr)

/-- `assert`. A run that fails one has no outcome. -/
def assertThat (expr : Bool) : Option Unit := if expr then some () else none

@[simp] theorem assertThat_true : assertThat true = some () := rfl

@[simp] theorem assertThat_false : assertThat false = none := rfl

theorem assertThat_eq_some_iff {expr : Bool} {u : Unit} :
    assertThat expr = some u ↔ expr = true := by
  cases expr <;> simp

@[simp] theorem errorFromCstr_some (str : String) (source : Error) :
    errorFromCstr str (some source) = .wrap str source := rfl

@[simp] theorem errorWrap_eq_none_iff (str : String) (source : Option Error) (alloc : Bool) :
    errorWrap str source alloc = none ↔ source = none := by
  rw [errorWrap, Option.map_eq_none_iff]

@[simp] theorem errorCombine_none_left (e : Option Error) (alloc : Bool) :
    errorCombine none e alloc = e := rfl

@[simp] theorem errorCombine_none_right (e : Option Error) (alloc : Bool) :
    errorCombine e none alloc = e := by
  cases e <;> rfl

@[simp] theorem errorCombine_eq_none_iff (e e' : Option Error) (alloc : Bool) :
    errorCombine e e' alloc = none ↔ e = none ∧ e' = none := by
  cases e with
  | none => simp
  | some x => cases e' <;> simp [errorCombine]

end PosixThreads
