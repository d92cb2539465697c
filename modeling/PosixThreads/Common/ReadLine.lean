import PosixThreads.Collections.String.Spec
import PosixThreads.Common.ReadInteger

/-!
# Reading a line from a stream

`read_line` reads up to a line feed or up to the end of the file, which is reported only if there is
nothing in front of it. What it has read of a line is lost if the stream fails or if there is no
memory.
-/

namespace PosixThreads

def isNotLf (ch : UInt8) : Bool := ch ≠ '\n'.toUInt8

/-- `read_while`, behind which the character that ends it can be read again. -/
def readWhile (predicate : UInt8 → Bool) (failing : Bool) :
    Alloc → StringT → List UInt8 → Option (Option CommonErrorCode × StringT × List UInt8)
  | _, result, [] =>
      if failing then some (some .fileError, result, []) else some (none, result, [])
  | allocs, result, ch :: rest =>
      if predicate ch then do
        let (code, result) ← StringT.push (allocs 0) result ch
        match code with
        | some code => return (some code, result, rest)
        | none => readWhile predicate failing (fun i => allocs (i + 1)) result rest
      else some (none, result, ch :: rest)

/-- What `read_line` does behind `read_while`. -/
def readLineFeed (failing : Bool) (result : StringT) :
    List UInt8 → Option (Option CommonErrorCode × StringT × List UInt8)
  | [] =>
      if 0 < result.len ∧ convertEof failing = .notFound then some (none, result, [])
      else some (some (convertEof failing), result, [])
  | lf :: rest => do
      assertThat (lf = '\n'.toUInt8)
      return (none, result, rest)

def readLine (allocs : Alloc) (file : File) (result : StringT) :
    Option (Option CommonErrorCode × StringT × File) := do
  let result ← result.clear
  let (code, result, input) ← readWhile isNotLf file.failing allocs result file.input
  match code with
  | some code => return (some code, result, { file with input := input })
  | none =>
      let (code, result, input) ← readLineFeed file.failing result input
      return (code, result, { file with input := input })

/-- The lines of a text. A line feed ends a line, and the last line may go without one. -/
def fileLines : List UInt8 → List (List UInt8)
  | [] => []
  | ch :: rest =>
      if isNotLf ch then
        match fileLines rest with
        | [] => [[ch]]
        | line :: lines => (ch :: line) :: lines
      else [] :: fileLines rest

section Lines

variable {line rest : List UInt8}

theorem fileLines_append_lf (h : ∀ ch ∈ line, isNotLf ch = true) (lf : UInt8)
    (hlf : isNotLf lf = false) (rest : List UInt8) :
    fileLines (line ++ lf :: rest) = line :: fileLines rest := by
  induction line with
  | nil => simp [fileLines, hlf]
  | cons ch line ih =>
      obtain ⟨hch, hline⟩ := List.forall_mem_cons.mp h
      rw [List.cons_append, fileLines, if_pos hch, ih hline]

theorem fileLines_of_no_lf (h : ∀ ch ∈ line, isNotLf ch = true) (hne : line ≠ []) :
    fileLines line = [line] := by
  induction line with
  | nil => exact absurd rfl hne
  | cons ch line ih =>
      obtain ⟨hch, hline⟩ := List.forall_mem_cons.mp h
      rw [fileLines, if_pos hch]
      cases line with
      | nil => rfl
      | cons ch' line => rw [ih hline (by simp)]

theorem mem_of_mem_fileLines {text : List UInt8} (hline : line ∈ fileLines text) {ch : UInt8}
    (hch : ch ∈ line) : ch ∈ text := by
  induction text generalizing line with
  | nil => simp [fileLines] at hline
  | cons c text ih =>
      rw [fileLines] at hline
      split at hline
      · split at hline
        · obtain rfl := List.mem_singleton.mp hline
          rw [List.mem_singleton.mp hch]
          exact List.mem_cons_self
        · rename_i first lines hlines
          rcases List.mem_cons.mp hline with rfl | hline
          · rcases List.mem_cons.mp hch with rfl | hch
            · exact List.mem_cons_self
            · exact List.mem_cons_of_mem _ (ih (hlines ▸ List.mem_cons_self) hch)
          · exact List.mem_cons_of_mem _ (ih (hlines ▸ List.mem_cons_of_mem _ hline) hch)
      · rcases List.mem_cons.mp hline with rfl | hline
        · simp at hch
        · exact List.mem_cons_of_mem _ (ih hline hch)

end Lines

inductive ReadsWhile (predicate : UInt8 → Bool) (failing : Bool) (bs input : List UInt8) :
    Option CommonErrorCode → StringT → List UInt8 → Prop
  | stops {str : StringT} {text : List UInt8} {ch : UInt8} {rest : List UInt8}
      (hholds : str.Holds (bs ++ text)) (htext : ∀ ch ∈ text, predicate ch = true)
      (hch : predicate ch = false) (hinput : input = text ++ ch :: rest) :
      ReadsWhile predicate failing bs input none str (ch :: rest)
  | ends {str : StringT} (hholds : str.Holds (bs ++ input))
      (htext : ∀ ch ∈ input, predicate ch = true) (hfailing : failing = false) :
      ReadsWhile predicate failing bs input none str []
  | fails {code : CommonErrorCode} {str : StringT} {rest : List UInt8} (hcode : code ≠ .notFound) :
      ReadsWhile predicate failing bs input (some code) str rest

theorem readWhile_spec (predicate : UInt8 → Bool) (failing : Bool) (allocs : Alloc)
    {str : StringT} {bs : List UInt8} (hholds : str.Holds bs) (input : List UInt8) :
    ∃ code str' rest, readWhile predicate failing allocs str input = some (code, str', rest) ∧
      ReadsWhile predicate failing bs input code str' rest := by
  induction input generalizing str bs allocs with
  | nil =>
      cases failing with
      | true => exact ⟨_, _, _, rfl, .fails (by simp)⟩
      | false => exact ⟨_, _, _, rfl, .ends (by rwa [List.append_nil]) (by simp) rfl⟩
  | cons ch input ih =>
      cases hch : predicate ch with
      | false =>
          refine ⟨_, _, _, by rw [readWhile, hch]; rfl, ?_⟩
          exact .stops (by rwa [List.append_nil]) (List.forall_mem_nil _) hch rfl
      | true =>
          rcases hholds.push_spec (allocs 0) ch with ⟨hpush, _⟩ | ⟨str', hpush, hholds'⟩
          · exact ⟨_, _, _, by rw [readWhile, hch, if_pos rfl, hpush]; rfl, .fails (by simp)⟩
          · obtain ⟨code, str'', rest, hread, hreads⟩ := ih (fun i => allocs (i + 1)) hholds'
            refine ⟨code, str'', rest, by rw [readWhile, hch, if_pos rfl, hpush]; exact hread, ?_⟩
            have hall : ∀ {text : List UInt8}, (∀ c ∈ text, predicate c = true) →
                ∀ c ∈ ch :: text, predicate c = true := fun htext =>
              List.forall_mem_cons.mpr ⟨hch, htext⟩
            cases hreads with
            | stops hholds htext hstop hinput =>
                rw [List.append_assoc, List.singleton_append] at hholds
                exact .stops hholds (hall htext) hstop (by rw [hinput]; rfl)
            | ends hholds htext hfailing =>
                rw [List.append_assoc, List.singleton_append] at hholds
                exact .ends hholds (hall htext) hfailing
            | fails hcode => exact .fails hcode

inductive ReadsLine (file : File) : Option CommonErrorCode → StringT → File → Prop
  | line {str : StringT} {text rest : List UInt8} (hholds : str.Holds text)
      (hlines : fileLines file.input = text :: fileLines rest) :
      ReadsLine file none str { file with input := rest }
  | ended {str : StringT} (hinput : file.input = []) : ReadsLine file (some .notFound) str file
  | fails {code : CommonErrorCode} {str : StringT} {file' : File} (hcode : code ≠ .notFound) :
      ReadsLine file (some code) str file'

theorem readLine_spec (allocs : Alloc) (file : File) {str : StringT} {bs : List UInt8}
    (hholds : str.Holds bs) : ∃ code str' file',
      readLine allocs file str = some (code, str', file') ∧ ReadsLine file code str' file' := by
  obtain ⟨str₁, hclear, hholds₁⟩ := hholds.clear_spec
  obtain ⟨code, str₂, rest, hread, hreads⟩ :=
    readWhile_spec isNotLf file.failing allocs hholds₁ file.input
  have hline : readLine allocs file str = (match code with
      | some code => some (some code, str₂, { file with input := rest })
      | none => (readLineFeed file.failing str₂ rest).map fun r =>
          (r.1, r.2.1, { file with input := r.2.2 })) := by
    simp only [readLine, hclear, hread, Option.bind_eq_bind, Option.bind_some]
    cases code with
    | some code => rfl
    | none => cases readLineFeed file.failing str₂ rest <;> rfl
  rw [hline]
  cases hreads with
  | @stops _ text lf rest hholds₂ htext hlf hinput =>
      have heq : lf = '\n'.toUInt8 := by simpa [isNotLf] using hlf
      refine ⟨none, str₂, { file with input := rest }, by simp [readLineFeed, heq], ?_⟩
      rw [List.nil_append] at hholds₂
      exact .line hholds₂ (by rw [hinput, fileLines_append_lf htext lf hlf])
  | ends hholds₂ htext hfailing =>
      rw [List.nil_append] at hholds₂
      have heof : convertEof file.failing = .notFound := by rw [hfailing]; rfl
      by_cases hempty : file.input = []
      · have hlen : str₂.len = 0 := by rw [hholds₂.len, hempty]; rfl
        refine ⟨some .notFound, str₂, file, ?_, .ended hempty⟩
        simp [readLineFeed, hlen, heof, ← hempty]
      · have hlen : 0 < str₂.len := by
          rw [hholds₂.len]
          exact List.length_pos_iff.mpr hempty
        refine ⟨none, str₂, { file with input := [] }, by simp [readLineFeed, hlen, heof], ?_⟩
        exact .line hholds₂ (by rw [fileLines_of_no_lf htext hempty]; rfl)
  | fails hcode => exact ⟨_, _, _, rfl, .fails hcode⟩

end PosixThreads
