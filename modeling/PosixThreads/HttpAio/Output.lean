import PosixThreads.HttpAio.Buffer

/-!
# Output

This is `write_all`, and what an error of a system call is. `write` may take a part of the bytes
only, and then the rest is written by another call.
-/

namespace PosixThreads

namespace HttpAio

/-- A failed `err_t`, of a system call or of a function that makes none. -/
inductive PrinterErr
  | plain (error : Err)
  | bool (context : String)
  | posix (context : Option String) (errno : ℕ) (message : String)
  | err (context : Option String) (cause : PrinterErr)
  deriving DecidableEq, Repr

/-- `ERR` of an `err_t`. -/
def wrapErr {α : Type*} (context : Option String) (result : Except PrinterErr α) :
    Except PrinterErr α :=
  result.mapError (.err context)

/-- `write_all`, with what has been written. An answer is the number of bytes that `write` takes,
or the number of an error; it takes all of the rest behind the last answer. -/
def writeAll : List (Except ℕ ℕ) → List Cell → List Cell × Option PrinterErr
  | _, [] => ([], none)
  | [], cells => (cells, none)
  | .error errno :: _, _ => ([], some (.posix none errno "write(2) failed"))
  | .ok written :: answers, cells =>
      let rest := writeAll answers (cells.drop written)
      (cells.take written ++ rest.1, rest.2)

theorem writeAll_prefix (answers : List (Except ℕ ℕ)) (cells : List Cell) :
    (writeAll answers cells).1 <+: cells := by
  induction answers generalizing cells with
  | nil => cases cells <;> simp [writeAll]
  | cons answer answers ih =>
      cases cells with
      | nil => simp [writeAll]
      | cons cell cells =>
          cases answer with
          | error errno => simp [writeAll]
          | ok written =>
              obtain ⟨rest, hrest⟩ := ih ((cell :: cells).drop written)
              refine ⟨rest, ?_⟩
              simp only [writeAll]
              rw [List.append_assoc, hrest, List.take_append_drop]

theorem writeAll_eq {answers : List (Except ℕ ℕ)} (hanswers : ∀ errno, .error errno ∉ answers)
    (cells : List Cell) : writeAll answers cells = (cells, none) := by
  induction answers generalizing cells with
  | nil => cases cells <;> rfl
  | cons answer answers ih =>
      cases cells with
      | nil => rfl
      | cons cell cells =>
          cases answer with
          | error errno => exact absurd List.mem_cons_self (hanswers errno)
          | ok written =>
              have hrest := ih (fun errno hmem => hanswers errno (List.mem_cons_of_mem _ hmem))
                ((cell :: cells).drop written)
              simp only [writeAll, hrest, List.take_append_drop]

theorem writeAll_none {answers : List (Except ℕ ℕ)} {cells : List Cell}
    (h : (writeAll answers cells).2 = none) : (writeAll answers cells).1 = cells := by
  induction answers generalizing cells with
  | nil => cases cells <;> rfl
  | cons answer answers ih =>
      cases cells with
      | nil => rfl
      | cons cell cells =>
          cases answer with
          | error errno => simp [writeAll] at h
          | ok written =>
              simp only [writeAll] at h ⊢
              rw [ih h, List.take_append_drop]

end HttpAio

end PosixThreads
