import Mathlib.Algebra.BigOperators.Group.List.Basic
import Mathlib.Tactic.Linarith
import PosixThreads.Common.Error

/-!
# Write requests

`io_process_write_req` writes the slices of one request to a descriptor. It is
called again and again for the request at the head of the queue until it
reports the request as finished, and it keeps its progress in `written_count`,
the number of bytes of the whole request that `writev` has taken so far.

A call skips the slices that are already written, offers the rest to `writev`
(at most `IOV_MAX` non-empty ones) and adds the accepted count to
`written_count`. It then compares that running total with `write_requested`,
the number of bytes offered in this one call. The two agree as long as nothing
was written before the call, and only then.
-/

namespace PosixThreads

/-- `slice_t`, the bytes it points to. -/
abbrev Slice := List UInt8

structure WriteReq where
  slices : List Slice
  writtenCount : ℕ
  deriving DecidableEq, Repr

inductive IoProcessResult
  | processFinished
  | processPartial
  | processAgain
  deriving DecidableEq, Repr

/-- The calls of `on_write` and `on_error` that one `io_process_write_req`
makes. -/
inductive IoCall
  | onWrite
  | onError (err : Error)
  deriving DecidableEq, Repr

/-- What the surroundings of one call answer: the value of `iov_max_size`, whether
the iovec array could be allocated, the count returned by `writev` (`none` when
it fails) and the values returned by the two callbacks. -/
structure IoEnv where
  iovMax : ℕ
  iovResized : Bool
  writev : Option ℕ
  onWrite : Option Error
  onError : Error → Option Error

structure IoOutcome where
  req : WriteReq
  processed : IoProcessResult
  err : Option Error
  calls : List IoCall
  deriving DecidableEq

/-- `iov_max_init`: the system limit if `sysconf` yields a positive one, and 16
otherwise. -/
def iovMaxInit (sysconf : Option ℤ) : ℕ :=
  match sysconf with
  | some iovSize => if 0 < iovSize then iovSize.toNat else 16
  | none => 16

/-- The first loop of `io_process_write_req`: the slices from
`first_unfinished_idx` on, and how much of the first of them is written. -/
def firstUnfinished : List Slice → ℕ → List Slice × ℕ
  | [], written => ([], written)
  | s :: rest, written =>
      if written < s.length then (s :: rest, written)
      else firstUnfinished rest (written - s.length)

/-- Only the slice at `first_unfinished_idx` is entered in the middle. -/
def skipWritten : List Slice → ℕ → List Slice
  | [], _ => []
  | s :: rest, written => s.drop written :: rest

/-- The second loop of `io_process_write_req`. It pushes the non-empty slices
until the iovec array is full and sums up their lengths in `write_requested`. -/
def fillIov (iovSize : ℕ) : List Slice → List Slice → ℕ → List Slice × ℕ
  | [], iov, writeRequested => (iov, writeRequested)
  | s :: rest, iov, writeRequested =>
      if iov.length < iovSize then
        if s.length = 0 then fillIov iovSize rest iov writeRequested
        else fillIov iovSize rest (iov ++ [s]) (writeRequested + s.length)
      else (iov, writeRequested)

def ioIovec (iovMax : ℕ) (req : WriteReq) : List Slice × ℕ :=
  let (rest, written) := firstUnfinished req.slices req.writtenCount
  let iovSize := if rest.length > iovMax then iovMax else rest.length
  fillIov iovSize (skipWritten rest written) [] 0

/-- The common exit of the error paths: `on_error` may take the error over, and
the request is given up if it does not. -/
def ioFail (env : IoEnv) (req : WriteReq) (calls : List IoCall) (err : Error) : IoOutcome :=
  match env.onError err with
  | none => ⟨req, .processAgain, none, calls ++ [.onError err]⟩
  | some err' => ⟨req, .processFinished, some err', calls ++ [.onError err]⟩

/-- `io_process_write_req`. The result is `none` when the assertion
`req->written_count <= write_requested` fails. -/
def ioProcessWriteReq (env : IoEnv) (err : Option Error) (req : WriteReq) :
    Option IoOutcome :=
  match err with
  | some err => some (ioFail env req [] (.wrap "A previous write request has failed" err))
  | none =>
      if env.iovResized then
        let (_, writeRequested) := ioIovec env.iovMax req
        match env.writev with
        | none => some (ioFail env req [] (.fromPosix "writev(2) failed"))
        | some count =>
            let req := { req with writtenCount := req.writtenCount + count }
            if req.writtenCount ≤ writeRequested then
              if req.writtenCount = writeRequested then
                match env.onWrite with
                | none => some ⟨req, .processFinished, none, [.onWrite]⟩
                | some err => some (ioFail env req [.onWrite] err)
              else some ⟨req, .processPartial, none, []⟩
            else none
      else some (ioFail env req [] (.fromCommon .memoryAllocationFailure))

/-! ## What one call offers -/

def totalLen (slices : List Slice) : ℕ := (slices.map List.length).sum

@[simp] theorem totalLen_nil : totalLen [] = 0 := rfl

@[simp] theorem totalLen_cons (s : Slice) (slices : List Slice) :
    totalLen (s :: slices) = s.length + totalLen slices := by
  simp [totalLen]

@[simp] theorem totalLen_append (xs ys : List Slice) :
    totalLen (xs ++ ys) = totalLen xs + totalLen ys := by
  simp [totalLen]

theorem iovMaxInit_pos (sysconf : Option ℤ) : 0 < iovMaxInit sysconf := by
  cases sysconf with
  | none => simp [iovMaxInit]
  | some n =>
      by_cases hn : 0 < n
      · simp only [iovMaxInit, if_pos hn]
        omega
      · simp [iovMaxInit, hn]

/-- The unfinished slices hold exactly the bytes that are not written yet. -/
theorem totalLen_firstUnfinished (slices : List Slice) (written : ℕ) :
    totalLen (skipWritten (firstUnfinished slices written).1
        (firstUnfinished slices written).2) = totalLen slices - written := by
  induction slices generalizing written with
  | nil => simp [firstUnfinished, skipWritten]
  | cons s rest ih =>
      by_cases h : written < s.length
      · simp only [firstUnfinished, if_pos h, skipWritten, totalLen_cons,
          List.length_drop]
        omega
      · simp only [firstUnfinished, if_neg h, totalLen_cons, ih]
        omega

theorem length_skipWritten (slices : List Slice) (written : ℕ) :
    (skipWritten slices written).length = slices.length := by
  cases slices <;> rfl

theorem fillIov_snd (iovSize : ℕ) (slices iov : List Slice) :
    (fillIov iovSize slices iov (totalLen iov)).2 =
      totalLen (fillIov iovSize slices iov (totalLen iov)).1 := by
  induction slices generalizing iov with
  | nil => rfl
  | cons s rest ih =>
      simp only [fillIov]
      split_ifs with hfull hempty
      · exact ih iov
      · have hsum : totalLen iov + s.length = totalLen (iov ++ [s]) := by simp
        rw [hsum]
        exact ih (iov ++ [s])
      · rfl

theorem ioIovec_snd (iovMax : ℕ) (req : WriteReq) :
    (ioIovec iovMax req).2 = totalLen (ioIovec iovMax req).1 :=
  fillIov_snd _ _ []

/-- No more is requested than the slices hold. -/
theorem fillIov_snd_le (iovSize : ℕ) (slices iov : List Slice) (n : ℕ) :
    (fillIov iovSize slices iov n).2 ≤ n + totalLen slices := by
  induction slices generalizing iov n with
  | nil => simp [fillIov]
  | cons s rest ih =>
      simp only [fillIov]
      split_ifs with hfull hempty
      · have h := ih iov n
        rw [totalLen_cons]
        omega
      · have h := ih (iov ++ [s]) (n + s.length)
        rw [totalLen_cons]
        omega
      · simp

theorem le_fillIov_snd (iovSize : ℕ) (slices iov : List Slice) (n : ℕ) :
    n ≤ (fillIov iovSize slices iov n).2 := by
  induction slices generalizing iov n with
  | nil => simp [fillIov]
  | cons s rest ih =>
      simp only [fillIov]
      split_ifs with hfull hempty
      · exact ih iov n
      · exact (Nat.le_add_right n s.length).trans (ih (iov ++ [s]) (n + s.length))
      · exact le_rfl

/-- Something is requested whenever there is a byte left and room for one slice. -/
theorem fillIov_snd_pos {iovSize : ℕ} (hsize : 0 < iovSize) (slices : List Slice)
    (hlen : 0 < totalLen slices) : 0 < (fillIov iovSize slices [] 0).2 := by
  induction slices with
  | nil => simp at hlen
  | cons s rest ih =>
      simp only [fillIov, List.length_nil, if_pos hsize]
      split_ifs with hempty
      · exact ih (by simpa [hempty] using hlen)
      · have h := le_fillIov_snd iovSize rest ([] ++ [s]) (0 + s.length)
        omega

theorem ioIovec_snd_le (iovMax : ℕ) (slices : List Slice) (written : ℕ) :
    (ioIovec iovMax ⟨slices, written⟩).2 ≤ totalLen slices - written := by
  rw [← totalLen_firstUnfinished slices written]
  have h := fillIov_snd_le
    (if (firstUnfinished slices written).1.length > iovMax then iovMax
      else (firstUnfinished slices written).1.length)
    (skipWritten (firstUnfinished slices written).1 (firstUnfinished slices written).2) [] 0
  simpa [ioIovec] using h

theorem ioIovec_snd_pos {iovMax : ℕ} (hmax : 0 < iovMax) (slices : List Slice) {written : ℕ}
    (hlt : written < totalLen slices) : 0 < (ioIovec iovMax ⟨slices, written⟩).2 := by
  have hleft : 0 < totalLen (skipWritten (firstUnfinished slices written).1
      (firstUnfinished slices written).2) := by
    rw [totalLen_firstUnfinished]
    omega
  have hne : 0 < (firstUnfinished slices written).1.length := by
    rw [← length_skipWritten _ (firstUnfinished slices written).2]
    by_contra hzero
    have hnil : skipWritten (firstUnfinished slices written).1
        (firstUnfinished slices written).2 = [] :=
      List.length_eq_zero_iff.mp (by omega)
    rw [hnil] at hleft
    simp at hleft
  exact fillIov_snd_pos (by split_ifs <;> omega) _ hleft

/-! ## Runs over one request -/

/-- A call in which allocation succeeds, `writev` accepts `count` bytes and
`on_write` returns no error. -/
def acceptingEnv (sysconf : Option ℤ) (count : ℕ) : IoEnv where
  iovMax := iovMaxInit sysconf
  iovResized := true
  writev := some count
  onWrite := none
  onError := some

/-- The calls made for one request, one for each result of `writev`, up to the
first one that finishes the request or aborts. -/
def writeRun (sysconf : Option ℤ) (req : WriteReq) : List ℕ → List (Option IoOutcome)
  | [] => []
  | count :: counts =>
      match ioProcessWriteReq (acceptingEnv sysconf count) none req with
      | none => [none]
      | some out =>
          some out ::
            if out.processed = .processFinished then [] else writeRun sysconf out.req counts

/-- `writev` accepts a non-empty part of what it is offered each time, and
nothing when nothing is offered. The request has `written` bytes accepted before. -/
def WritevAccepts (sysconf : Option ℤ) (slices : List Slice) : ℕ → List ℕ → Prop
  | _, [] => True
  | written, count :: counts =>
      let offered := totalLen (ioIovec (iovMaxInit sysconf) ⟨slices, written⟩).1
      (if offered = 0 then count = 0 else 1 ≤ count ∧ count ≤ offered) ∧
        WritevAccepts sysconf slices (written + count) counts

/-- No call of the run aborts, and `on_write` is called in exactly the call that
brings the bytes accepted so far to the length of the request. -/
def WriteCompletes (sysconf : Option ℤ) (slices : List Slice) (written : ℕ)
    (counts : List ℕ) : Prop :=
  ∀ k result, (writeRun sysconf ⟨slices, written⟩ counts)[k]? = some result →
    ∃ out, result = some out ∧
      (IoCall.onWrite ∈ out.calls ↔
        written + (counts.take (k + 1)).sum = totalLen slices)

/-- The three ways a call can end: too many bytes for the assertion, exactly the
requested bytes, or fewer. -/
theorem ioProcessWriteReq_accepting (sysconf : Option ℤ) (slices : List Slice)
    (written count : ℕ) :
    ioProcessWriteReq (acceptingEnv sysconf count) none ⟨slices, written⟩ =
      if (ioIovec (iovMaxInit sysconf) ⟨slices, written⟩).2 < written + count then none
      else if written + count = (ioIovec (iovMaxInit sysconf) ⟨slices, written⟩).2 then
        some ⟨⟨slices, written + count⟩, .processFinished, none, [.onWrite]⟩
      else some ⟨⟨slices, written + count⟩, .processPartial, none, []⟩ := by
  by_cases hle : written + count ≤ (ioIovec (iovMaxInit sysconf) ⟨slices, written⟩).2
  · by_cases heq : written + count = (ioIovec (iovMaxInit sysconf) ⟨slices, written⟩).2
    · simp [ioProcessWriteReq, acceptingEnv, heq]
    · simp [ioProcessWriteReq, acceptingEnv, hle, Nat.not_lt.mpr hle, heq]
  · simp [ioProcessWriteReq, acceptingEnv, hle, Nat.not_le.mp hle]

theorem writeCompletes_nil (sysconf : Option ℤ) (slices : List Slice) (written : ℕ) :
    WriteCompletes sysconf slices written [] := by
  intro k result h
  simp [writeRun] at h

/-- One call that aborts or finishes decides the run, and one that does neither
passes the question on to the remaining results. -/
theorem writeCompletes_cons (sysconf : Option ℤ) (slices : List Slice)
    (written count : ℕ) (counts : List ℕ) :
    WriteCompletes sysconf slices written (count :: counts) ↔
      written + count ≤ (ioIovec (iovMaxInit sysconf) ⟨slices, written⟩).2 ∧
      (written + count = (ioIovec (iovMaxInit sysconf) ⟨slices, written⟩).2 ↔
        written + count = totalLen slices) ∧
      (written + count < (ioIovec (iovMaxInit sysconf) ⟨slices, written⟩).2 →
        WriteCompletes sysconf slices (written + count) counts) := by
  have hcall := ioProcessWriteReq_accepting sysconf slices written count
  set requested := (ioIovec (iovMaxInit sysconf) ⟨slices, written⟩).2
  rcases lt_trichotomy (written + count) requested with hlt | heq | hgt
  · have hrun : writeRun sysconf ⟨slices, written⟩ (count :: counts) =
        some ⟨⟨slices, written + count⟩, .processPartial, none, []⟩ ::
          writeRun sysconf ⟨slices, written + count⟩ counts := by
      rw [if_neg (by omega), if_neg (by omega)] at hcall
      simp [writeRun, hcall]
    constructor
    · intro h
      refine ⟨hlt.le, ?_, fun _ => ?_⟩
      · obtain ⟨out, hout, hiff⟩ := h 0 _ (by rw [hrun]; rfl)
        cases hout
        have hne : ¬ written + count = totalLen slices := by simpa using hiff
        exact ⟨fun h' => absurd h' hlt.ne, fun h' => absurd h' hne⟩
      · intro k result hk
        obtain ⟨out, hout, hiff⟩ := h (k + 1) result (by rw [hrun]; exact hk)
        refine ⟨out, hout, hiff.trans ?_⟩
        rw [List.take_succ_cons, List.sum_cons, Nat.add_assoc]
    · rintro ⟨_, hfirst, hrest⟩ k result hk
      rw [hrun] at hk
      cases k with
      | zero =>
          cases hk
          have hne : ¬ written + count = totalLen slices := fun h' => hlt.ne (hfirst.mpr h')
          exact ⟨_, rfl, by simpa using hne⟩
      | succ k =>
          obtain ⟨out, hout, hiff⟩ := hrest hlt k result hk
          refine ⟨out, hout, hiff.trans ?_⟩
          rw [List.take_succ_cons, List.sum_cons, Nat.add_assoc]
  · have hrun : writeRun sysconf ⟨slices, written⟩ (count :: counts) =
        [some ⟨⟨slices, written + count⟩, .processFinished, none, [.onWrite]⟩] := by
      rw [if_neg (by omega), if_pos heq] at hcall
      simp [writeRun, hcall]
    constructor
    · intro h
      obtain ⟨out, hout, hiff⟩ := h 0 _ (by rw [hrun]; rfl)
      cases hout
      have htot : written + count = totalLen slices := by simpa using hiff
      exact ⟨heq.le, iff_of_true heq htot, fun h' => absurd heq h'.ne⟩
    · rintro ⟨_, hfirst, _⟩ k result hk
      rw [hrun] at hk
      cases k with
      | zero =>
          cases hk
          exact ⟨_, rfl, by simpa using hfirst.mp heq⟩
      | succ k => simp at hk
  · have hrun : writeRun sysconf ⟨slices, written⟩ (count :: counts) = [none] := by
      rw [if_pos hgt] at hcall
      simp [writeRun, hcall]
    constructor
    · intro h
      obtain ⟨out, hout, _⟩ := h 0 none (by rw [hrun]; rfl)
      cases hout
    · rintro ⟨hle, _, _⟩
      omega

/-- Once something has been written, no sequence of results that delivers the
rest of the request is handled right: the last call at the latest compares the
whole length with what was left of it. -/
theorem not_writeCompletes_of_resumed (sysconf : Option ℤ) (slices : List Slice)
    (counts : List ℕ) :
    ∀ written, 0 < written → written < totalLen slices →
      written + counts.sum = totalLen slices →
      ¬ WriteCompletes sysconf slices written counts := by
  induction counts with
  | nil =>
      intro written _ hlt hsum
      simp only [List.sum_nil] at hsum
      omega
  | cons count counts ih =>
      intro written hpos hlt hsum h
      rw [writeCompletes_cons] at h
      obtain ⟨hle, hiff, hrest⟩ := h
      have hoffer := ioIovec_snd_le (iovMaxInit sysconf) slices written
      have hne : written + count ≠ totalLen slices := by omega
      have hlt' : written + count < (ioIovec (iovMaxInit sysconf) ⟨slices, written⟩).2 :=
        lt_of_le_of_ne hle (fun h' => hne (hiff.mp h'))
      refine ih (written + count) (by omega) (by omega) ?_ (hrest hlt')
      rw [List.sum_cons] at hsum
      omega

theorem writeCompletes_of_totalLen_le_one (sysconf : Option ℤ) (slices : List Slice)
    (hlen : totalLen slices ≤ 1) (counts : List ℕ)
    (haccepts : WritevAccepts sysconf slices 0 counts) :
    WriteCompletes sysconf slices 0 counts := by
  cases counts with
  | nil => exact writeCompletes_nil sysconf slices 0
  | cons count counts =>
      have hoffer := ioIovec_snd_le (iovMaxInit sysconf) slices 0
      have hbytes := ioIovec_snd (iovMaxInit sysconf) ⟨slices, 0⟩
      have hcount := haccepts.1
      have hpos : totalLen slices = 1 →
          0 < (ioIovec (iovMaxInit sysconf) ⟨slices, 0⟩).2 :=
        fun h1 => ioIovec_snd_pos (iovMaxInit_pos sysconf) slices (by omega)
      rw [← hbytes] at hcount
      rw [writeCompletes_cons]
      split_ifs at hcount with hzero <;>
        exact ⟨by omega, by omega, fun h => by omega⟩

/-- The results that break a request of two bytes or more: one byte first, then
everything that is offered. -/
theorem exists_not_writeCompletes (sysconf : Option ℤ) (slices : List Slice)
    (hlen : 2 ≤ totalLen slices) :
    ∃ counts, WritevAccepts sysconf slices 0 counts ∧
      ¬ WriteCompletes sysconf slices 0 counts := by
  have hfirst : 0 < (ioIovec (iovMaxInit sysconf) ⟨slices, 0⟩).2 :=
    ioIovec_snd_pos (iovMaxInit_pos sysconf) slices (by omega)
  have hsecond : 0 < (ioIovec (iovMaxInit sysconf) ⟨slices, 1⟩).2 :=
    ioIovec_snd_pos (iovMaxInit_pos sysconf) slices (by omega)
  refine ⟨[1, (ioIovec (iovMaxInit sysconf) ⟨slices, 1⟩).2], ?_, ?_⟩
  · simp only [WritevAccepts, ← ioIovec_snd, Nat.zero_add, and_true]
    rw [if_neg hfirst.ne', if_neg hsecond.ne']
    omega
  · rw [writeCompletes_cons]
    rintro ⟨hle, hiff, hrest⟩
    have hlt : 0 + 1 < (ioIovec (iovMaxInit sysconf) ⟨slices, 0⟩).2 := by omega
    have h := hrest hlt
    rw [Nat.zero_add, writeCompletes_cons] at h
    omega

/-- `on_write` is called at the right time for every sequence of results exactly
for the requests of at most one byte. For a sequence that delivers the whole
request it is so exactly when the first `writev` takes all of it. -/
theorem writeCompletes_iff (sysconf : Option ℤ) (slices : List Slice) :
    ((∀ counts, WritevAccepts sysconf slices 0 counts →
        WriteCompletes sysconf slices 0 counts) ↔ totalLen slices ≤ 1) ∧
      ∀ counts, WritevAccepts sysconf slices 0 counts → counts.sum = totalLen slices →
        (WriteCompletes sysconf slices 0 counts ↔
          (counts.take 1).sum = totalLen slices) := by
  refine ⟨⟨?_, ?_⟩, ?_⟩
  · intro h
    by_contra hlen
    obtain ⟨counts, haccepts, hnot⟩ := exists_not_writeCompletes sysconf slices (by omega)
    exact hnot (h counts haccepts)
  · intro hlen counts haccepts
    exact writeCompletes_of_totalLen_le_one sysconf slices hlen counts haccepts
  · intro counts haccepts hsum
    cases counts with
    | nil => exact iff_of_true (writeCompletes_nil sysconf slices 0) hsum
    | cons count counts =>
        have hoffer := ioIovec_snd_le (iovMaxInit sysconf) slices 0
        have hcount := haccepts.1
        rw [← ioIovec_snd] at hcount
        have hle : count ≤ (ioIovec (iovMaxInit sysconf) ⟨slices, 0⟩).2 := by
          split_ifs at hcount <;> omega
        have htake : ((count :: counts).take 1).sum = count := by simp
        rw [htake, writeCompletes_cons, Nat.zero_add]
        constructor
        · rintro ⟨_, hiff, hrest⟩
          by_contra hne
          have hlt : count < (ioIovec (iovMaxInit sysconf) ⟨slices, 0⟩).2 :=
            lt_of_le_of_ne hle (fun h => hne (hiff.mp h))
          have hpos : 0 < count := by
            rw [if_neg (by omega)] at hcount
            exact hcount.1
          refine not_writeCompletes_of_resumed sysconf slices counts count hpos (by omega) ?_
            (hrest hlt)
          simpa using hsum
        · intro htot
          have heq : count = (ioIovec (iovMaxInit sysconf) ⟨slices, 0⟩).2 := by omega
          exact ⟨heq.le, iff_of_true heq htot, fun h => absurd heq h.ne⟩

/-- Three bytes of which `writev` takes one at a time: the second call reports
the request as written when two of them are. -/
theorem writeCompletes_fails_on_three_bytes :
    WritevAccepts (some 1024) [[97, 98, 99]] 0 [1, 1] ∧
      ¬ WriteCompletes (some 1024) [[97, 98, 99]] 0 [1, 1] := by
  refine ⟨by simp [WritevAccepts, ioIovec, firstUnfinished, skipWritten, fillIov, iovMaxInit], ?_⟩
  intro h
  obtain ⟨out, hout, hiff⟩ := h 1 (some ⟨⟨[[97, 98, 99]], 2⟩, .processFinished, none, [.onWrite]⟩)
    (by decide)
  cases hout
  exact absurd (hiff.mp (by simp)) (by decide)

/-- The same three bytes taken by a single `writev`. -/
theorem writeCompletes_three_bytes_at_once :
    WriteCompletes (some 1024) [[97, 98, 99]] 0 [3] ∧ ¬ totalLen [[97, 98, 99]] ≤ 1 :=
  ⟨((writeCompletes_iff (some 1024) [[97, 98, 99]]).2 [3]
      (by simp [WritevAccepts, ioIovec, firstUnfinished, skipWritten, fillIov, iovMaxInit])
      (by decide)).mpr (by decide), by decide⟩

end PosixThreads
