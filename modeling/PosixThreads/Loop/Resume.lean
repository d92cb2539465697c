import Mathlib.Data.List.Infix
import PosixThreads.Common.Memory
import PosixThreads.Loop.Io

/-!
# Resuming a write request

A call of `io_process_write_req` looks for the place where the last one has stopped and builds
the array for `writev` from there. `remaining` says what is left of a request without looking
for that place: every slice loses what has been written of it. The array holds the first
non-empty slices of that, as many as there is room for.
-/

namespace PosixThreads

def remaining : List Slice → ℕ → List Slice
  | [], _ => []
  | s :: rest, written => s.drop written :: remaining rest (written - s.length)

/-- The slices that are worth an entry of the array. -/
def nonEmpty (slices : List Slice) : List Slice := slices.filter fun s => s ≠ []

def intOfSize (n : ℕ) : ℤ := Int.bmod n 0x100000000

/-- The arguments of `writev`. The length of the array is passed as an `int`. -/
structure WritevArgs where
  iov : List Slice
  iovcnt : ℤ
  deriving DecidableEq, Repr

/-- What one call of `io_process_write_req` passes to `writev`, if it comes so far. -/
def ioWritevArgs (env : IoEnv) (err : Option Error) (req : WriteReq) : Option WritevArgs :=
  match err with
  | some _ => none
  | none =>
      if env.iovResized then
        let iov := (ioIovec env.iovMax req).1
        some ⟨iov, intOfSize iov.length⟩
      else none

theorem remaining_zero (slices : List Slice) : remaining slices 0 = slices := by
  induction slices with
  | nil => rfl
  | cons s rest ih => rw [remaining, List.drop_zero, Nat.zero_sub, ih]

theorem flatten_remaining (slices : List Slice) (written : ℕ) :
    (remaining slices written).flatten = slices.flatten.drop written := by
  induction slices generalizing written with
  | nil => simp [remaining]
  | cons s rest ih => rw [remaining, List.flatten_cons, List.flatten_cons, ih, List.drop_append]

theorem totalLen_eq_length_flatten (slices : List Slice) :
    totalLen slices = slices.flatten.length := by
  rw [List.length_flatten]
  rfl

theorem flatten_nonEmpty (slices : List Slice) : (nonEmpty slices).flatten = slices.flatten := by
  induction slices with
  | nil => rfl
  | cons s rest ih =>
      by_cases hs : s = []
      · have hfilter : nonEmpty (s :: rest) = nonEmpty rest := by simp [nonEmpty, hs]
        rw [hfilter, ih, hs, List.flatten_cons, List.nil_append]
      · have hfilter : nonEmpty (s :: rest) = s :: nonEmpty rest := by simp [nonEmpty, hs]
        rw [hfilter, List.flatten_cons, List.flatten_cons, ih]

theorem nonEmpty_eq_nil_iff {slices : List Slice} : nonEmpty slices = [] ↔ slices.flatten = [] := by
  simp [nonEmpty, List.flatten_eq_nil_iff]

/-- The first loop only drops slices of which nothing is left. -/
theorem nonEmpty_skipWritten (slices : List Slice) (written : ℕ) :
    nonEmpty (skipWritten (firstUnfinished slices written).1 (firstUnfinished slices written).2) =
      nonEmpty (remaining slices written) := by
  induction slices generalizing written with
  | nil => rfl
  | cons s rest ih =>
      by_cases hlt : written < s.length
      · have hzero : written - s.length = 0 := by omega
        rw [firstUnfinished, if_pos hlt, skipWritten, remaining, hzero, remaining_zero]
      · have hnil : s.drop written = [] := List.drop_eq_nil_of_le (not_lt.mp hlt)
        rw [firstUnfinished, if_neg hlt, ih, remaining, hnil]
        simp [nonEmpty]

/-- The second loop fills what is free of the array. -/
theorem fillIov_fst (iovSize : ℕ) (slices iov : List Slice) (n : ℕ) :
    (fillIov iovSize slices iov n).1 = iov ++ (nonEmpty slices).take (iovSize - iov.length) := by
  induction slices generalizing iov n with
  | nil => simp [fillIov, nonEmpty]
  | cons s rest ih =>
      by_cases hfull : iov.length < iovSize
      · by_cases hs : s = []
        · have hfilter : nonEmpty (s :: rest) = nonEmpty rest := by simp [nonEmpty, hs]
          rw [fillIov, if_pos hfull, if_pos (by simp [hs]), ih, hfilter]
        · have hfilter : nonEmpty (s :: rest) = s :: nonEmpty rest := by simp [nonEmpty, hs]
          have hlen : iovSize - iov.length = iovSize - (iov ++ [s]).length + 1 := by
            rw [List.length_append, List.length_singleton]
            omega
          rw [fillIov, if_pos hfull, if_neg (by simp [hs]), ih, hfilter, hlen,
            List.take_succ_cons, List.append_assoc, List.singleton_append]
      · have hzero : iovSize - iov.length = 0 := by omega
        rw [fillIov, if_neg hfull, hzero, List.take_zero, List.append_nil]

/-- The array is cut to the number of slices, but there are no more non-empty ones anyway. -/
theorem ioIovec_fst (iovMax : ℕ) (slices : List Slice) (written : ℕ) :
    (ioIovec iovMax ⟨slices, written⟩).1 = (nonEmpty (remaining slices written)).take iovMax := by
  have hskip := nonEmpty_skipWritten slices written
  have hlen : (nonEmpty (remaining slices written)).length ≤
      (firstUnfinished slices written).1.length := by
    rw [← hskip]
    refine (List.length_filter_le _ _).trans ?_
    rw [length_skipWritten]
  simp only [ioIovec]
  rw [fillIov_fst, hskip, List.nil_append, List.length_nil, Nat.sub_zero]
  split_ifs with hmax
  · rfl
  · rw [List.take_of_length_le hlen, List.take_of_length_le (hlen.trans (not_lt.mp hmax))]

/-- The array holds what is to be written next: the first slices that are left, all of them if
there is room, and none only if there is nothing left. -/
structure OffersNext (iovMax : ℕ) (slices : List Slice) (written : ℕ) (args : WritevArgs) :
    Prop where
  iov_eq : args.iov = (nonEmpty (remaining slices written)).take iovMax
  bytes_left : (nonEmpty (remaining slices written)).flatten = slices.flatten.drop written
  is_prefix : args.iov.flatten <+: slices.flatten.drop written
  length_le : args.iov.length ≤ iovMax
  all_of_fits : (nonEmpty (remaining slices written)).length ≤ iovMax →
    args.iov.flatten = slices.flatten.drop written
  nothing_iff : args.iov = [] ↔ written = totalLen slices
  iovcnt_eq : iovMax ≤ intMax → args.iovcnt = args.iov.length

theorem intOfSize_of_le_intMax {n : ℕ} (h : n ≤ intMax) : intOfSize n = n := by
  unfold intOfSize
  unfold intMax at h
  rw [Int.bmod_eq_of_le_mul_two] <;> omega

theorem OffersNext.ioIovec {iovMax : ℕ} {slices : List Slice} {written : ℕ} (hmax : 1 ≤ iovMax)
    (hwritten : written ≤ totalLen slices) :
    OffersNext iovMax slices written
      ⟨(ioIovec iovMax ⟨slices, written⟩).1,
        intOfSize (ioIovec iovMax ⟨slices, written⟩).1.length⟩ := by
  have hleft : (nonEmpty (remaining slices written)).flatten = slices.flatten.drop written := by
    rw [flatten_nonEmpty, flatten_remaining]
  have hlen : ((nonEmpty (remaining slices written)).take iovMax).length ≤ iovMax := by
    rw [List.length_take]
    exact min_le_left _ _
  have hnil : nonEmpty (remaining slices written) = [] ↔ written = totalLen slices := by
    rw [nonEmpty_eq_nil_iff, flatten_remaining, List.drop_eq_nil_iff, totalLen_eq_length_flatten]
    rw [totalLen_eq_length_flatten] at hwritten
    omega
  simp only [ioIovec_fst]
  refine ⟨rfl, hleft, ?_, hlen, fun hfits => ?_, ?_, fun hint => ?_⟩
  · rw [← hleft]
    exact List.IsPrefix.flatten (List.take_prefix iovMax _)
  · simp only [List.take_of_length_le hfits, hleft]
  · rw [← hnil, List.take_eq_nil_iff]
    exact or_iff_right (by omega)
  · dsimp only
    exact intOfSize_of_le_intMax (hlen.trans hint)

/-- Every call that comes to `writev` offers what is to be written next. -/
theorem offersNext_of_writev {env : IoEnv} {err : Option Error} {slices : List Slice}
    {written : ℕ} {args : WritevArgs} (hmax : 1 ≤ env.iovMax) (hwritten : written ≤ totalLen slices)
    (h : ioWritevArgs env err ⟨slices, written⟩ = some args) :
    OffersNext env.iovMax slices written args := by
  cases err with
  | some err => simp [ioWritevArgs] at h
  | none =>
      simp only [ioWritevArgs] at h
      split at h
      · rw [← Option.some.inj h]
        exact .ioIovec hmax hwritten
      · simp at h

/-- The first bytes of a request are written, up to the middle of a slice behind an empty one,
and there is room for two slices. -/
theorem offersNext_three_slices :
    1 ≤ 2 ∧ 4 ≤ totalLen [[1, 2, 3], [], [4, 5], [], [6], [7]] ∧
      ∃ args, ioWritevArgs ⟨2, true, none, none, some⟩ none
        ⟨[[1, 2, 3], [], [4, 5], [], [6], [7]], 4⟩ = some args ∧ args.iov = [[5], [6]] ∧
          OffersNext 2 [[1, 2, 3], [], [4, 5], [], [6], [7]] 4 args :=
  ⟨by decide, by decide, ⟨[[5], [6]], 2⟩, by decide, rfl,
    @offersNext_of_writev ⟨2, true, none, none, some⟩ none _ _ _ (by decide) (by decide)
      (by decide)⟩

end PosixThreads
