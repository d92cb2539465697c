import PosixThreads.Common.Error

/-!
# Errors of the HTTP printer

A function that returns `err_t` returns `Option Err` here, which is `none` for `OK`. The variants
are those of the modelled functions. Files, lines and the chance that the cause of an error cannot
be stored are left out.
-/

namespace PosixThreads

namespace HttpAio

/-- A failed `err_t`. -/
inductive Err
  | bool (context : String)
  | common (context : String) (code : CommonErrorCode)
  | err (context : Option String) (cause : Err)
  deriving DecidableEq, Repr

def errFromBool (result : Bool) (context : String) : Option Err :=
  if result then none else some (.bool context)

def errFromErr (err : Option Err) (context : Option String) : Option Err := err.map (.err context)

@[simp] theorem errFromBool_true (context : String) : errFromBool true context = none := rfl

@[simp] theorem errFromBool_false (context : String) :
    errFromBool false context = some (.bool context) := rfl

@[simp] theorem errFromErr_none (context : Option String) : errFromErr none context = none := rfl

@[simp] theorem errFromErr_some (err : Err) (context : Option String) :
    errFromErr (some err) context = some (.err context err) := rfl

end HttpAio

end PosixThreads
