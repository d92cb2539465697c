import PosixThreads.Philosophers.Basic
import Mathlib.Algebra.Order.Ring.Int
import Mathlib.Data.List.Nodup

/-!
# The dishes

The dishes that are taken from the store are those from `units` on. Each of them is in the hands of
a philosopher or has been eaten. Every step brings the end nearer, so that every run is bounded,
and as not everybody is blocked before the end, every run can be brought to it.
-/

namespace PosixThreads

variable {n units : ℕ} {hist : List (Fin n × Unit)} {s : Dinner n} {id : Fin n}
  {sh sh' : Table n} {p p' : Phase}

def Phase.hand : Phase → Multiset ℤ
  | .leaving dish => if dish = -1 then 0 else {dish}
  | .hungry dish => {dish}
  | .holding dish => {dish}
  | _ => 0

def taken (units : ℕ) (left : ℤ) : Multiset ℤ :=
  (List.range' left.toNat (units - left.toNat)).map fun dish : ℕ => (dish : ℤ)

theorem taken_sub_one {left : ℤ} (hpos : 0 < left) (hle : left ≤ units) :
    taken units (left - 1) = {left - 1} + taken units left := by
  obtain ⟨k, rfl⟩ : ∃ k : ℕ, left = k + 1 := ⟨(left - 1).toNat, by omega⟩
  have hrange : List.range' k (units - k) = k :: List.range' (k + 1) (units - (k + 1)) := by
    rw [← List.range'_succ]
    congr 1
    omega
  have hleft : ((k : ℤ) + 1).toNat = k + 1 := by omega
  rw [taken, taken, hleft, add_sub_cancel_right, Int.toNat_natCast, hrange, List.map_cons,
    Multiset.singleton_add, Multiset.cons_coe]

theorem nodup_taken (units : ℕ) (left : ℤ) : (taken units left).Nodup :=
  Multiset.coe_nodup.mpr ((List.nodup_range').map Nat.cast_injective)

def Table.eaten (s : Table n) : Multiset ℤ := s.log.map Prod.snd

def Phase.Leaves (p : Phase) : Prop := p = .leaving (-1) ∨ p = .finished

structure DishesServed (units : ℕ) (s : Dinner n) : Prop where
  units_ge : -1 ≤ s.shared.units
  units_le : s.shared.units ≤ units
  empty : ∀ t, (s.pc t).Leaves → s.shared.units = -1
  dishes : s.shared.eaten + ∑ t, (s.pc t).hand = taken units s.shared.units

/-! ## One step -/

theorem workerStep_units (h : workerStep id sh p () = some (sh', p')) (hge : -1 ≤ sh.units) :
    -1 ≤ sh'.units ∧ sh'.units ≤ sh.units := by
  cases p with
  | fetching | hungry | holding =>
      obtain ⟨s₁, hlock, heq⟩ := Option.map_eq_some_iff.mp h
      obtain ⟨-, rfl⟩ := lock_eq_some.mp hlock
      cases heq
      exact ⟨hge, le_rfl⟩
  | taking =>
      cases h
      simp only
      split <;> omega
  | leaving | eating | finishing =>
      cases h
      exact ⟨hge, le_rfl⟩
  | finished => cases h

/-- A philosopher leaves because he has seen the empty store. -/
theorem workerStep_leaves (h : workerStep id sh p () = some (sh', p')) (hleaves : p'.Leaves) :
    p.Leaves ∨ sh'.units = -1 := by
  cases p with
  | fetching | hungry | holding =>
      obtain ⟨s₁, hlock, heq⟩ := Option.map_eq_some_iff.mp h
      cases heq
      simp [Phase.Leaves] at hleaves
  | taking =>
      cases h
      exact .inr (by simpa [Phase.Leaves] using hleaves)
  | leaving dish =>
      cases h
      by_cases hdish : dish = -1
      · exact .inl (.inl (by rw [hdish]))
      · simp [Phase.Leaves, hdish] at hleaves
  | eating | finishing =>
      cases h
      simp [Phase.Leaves] at hleaves
  | finished => cases h

theorem workerStep_dishes (h : workerStep id sh p () = some (sh', p')) (hge : -1 ≤ sh.units)
    (hle : sh.units ≤ units) :
    sh'.eaten + p'.hand + taken units sh.units = sh.eaten + p.hand + taken units sh'.units := by
  cases p with
  | fetching | hungry =>
      obtain ⟨s₁, hlock, heq⟩ := Option.map_eq_some_iff.mp h
      obtain ⟨-, rfl⟩ := lock_eq_some.mp hlock
      cases heq
      rfl
  | holding =>
      obtain ⟨s₁, hlock, heq⟩ := Option.map_eq_some_iff.mp h
      obtain ⟨-, rfl⟩ := lock_eq_some.mp hlock
      cases heq
      simp [Table.eaten, Phase.hand, ← Multiset.coe_add]
  | taking =>
      cases h
      rcases lt_trichotomy sh.units 0 with hneg | hzero | hpos
      · have hunits : sh.units = -1 := by omega
        simp [Table.eaten, Phase.hand, hunits]
      · simp [Table.eaten, Phase.hand, hzero, taken]
      · have htake := taken_sub_one hpos hle
        have hdish : sh.units - 1 ≠ -1 := by omega
        simp only [ge_iff_le, hpos.le, if_true, Phase.hand, if_neg hdish, Table.eaten, htake]
        ac_rfl
  | leaving dish =>
      cases h
      by_cases hdish : dish = -1
      · simp [Table.eaten, Table.unlock, Phase.hand, hdish]
      · simp [Table.eaten, Table.unlock, Phase.hand, hdish]
  | eating | finishing =>
      cases h
      rfl
  | finished => cases h

/-! ## Every run -/

theorem served_of_run (hrun : DinnerRun n units hist s) : DishesServed units s := by
  refine hrun.invariant (I := fun _ s => DishesServed units s) (fun s hinit => ?_)
    fun _ s label s' h hstep => ?_
  · obtain ⟨hshared, hpc⟩ := hinit
    constructor <;> simp [hshared, hpc, Phase.Leaves, Table.eaten, Phase.hand, taken]
  · obtain ⟨sh, p, hmove, rfl⟩ := Threads.move_eq_some.mp hstep
    obtain ⟨hge, hle⟩ := workerStep_units hmove h.units_ge
    refine ⟨hge, hle.trans h.units_le, fun t ht => ?_, ?_⟩
    · -- whoever has seen the empty store, it stays empty
      have hempty : ∀ u, (s.pc u).Leaves → sh.units = -1 := by
        intro u hu
        have := h.empty u hu
        omega
      by_cases htl : t = label.1
      · simp only [htl, Function.update_self] at ht
        exact (workerStep_leaves hmove ht).elim (hempty label.1) id
      · simp only [Function.update_of_ne htl] at ht
        exact hempty t ht
    · exact Threads.balance (fun _ p => Phase.hand p) s.pc label.1 p h.dishes
        (workerStep_dishes hmove h.units_ge h.units_le)

/-- The steps that a philosopher can still make with what he has in his hands. -/
def Phase.left : Phase → ℕ
  | .finished => 0
  | .leaving dish => if dish = -1 then 1 else 8
  | .taking => 2
  | .fetching => 3
  | .finishing => 4
  | .eating _ => 5
  | .holding _ => 6
  | .hungry _ => 7

theorem workerStep_left (h : workerStep id sh p () = some (sh', p')) (hge : -1 ≤ sh.units) :
    8 * (sh'.units + 1).toNat + p'.left < 8 * (sh.units + 1).toNat + p.left := by
  cases p with
  | fetching | hungry | holding =>
      obtain ⟨s₁, hlock, heq⟩ := Option.map_eq_some_iff.mp h
      obtain ⟨-, rfl⟩ := lock_eq_some.mp hlock
      cases heq
      simp [Phase.left]
  | taking =>
      cases h
      simp only [Phase.left]
      split <;> split <;> omega
  | leaving dish =>
      cases h
      by_cases hdish : dish = -1
      · simp [Phase.left, Table.unlock, hdish]
      · simp [Phase.left, Table.unlock, hdish]
  | eating | finishing =>
      cases h
      simp [Phase.left, Table.unlock]
  | finished => cases h

theorem length_le_of_run (hrun : DinnerRun n units hist s) :
    hist.length ≤ 8 * (units + 1) + 3 * n := by
  have hbound := Threads.Run.length_add_measure_le (I := DishesServed units)
    (N := 8 * (units + 1) + 3 * n) (fun sh => 8 * (sh.units + 1).toNat) (fun _ p => p.left)
    (fun s hinit => ?_) (fun s t _ sh p hs hmove => workerStep_left hmove hs.units_ge)
    (fun _ _ => served_of_run) hrun
  · omega
  · simp only [hinit.1, hinit.2, Phase.left, Finset.sum_const, Finset.card_univ, Fintype.card_fin,
      Nat.nsmul_eq_mul]
    omega

/-- Dishes are eaten at most once in every run. Runs are bounded, every run can be brought to its
end, and there each dish has been eaten once and all mutexes have been unlocked. -/
theorem dinner_serves (hn : 2 ≤ n) (hrun : DinnerRun n units hist s) :
    (s.shared.log.map Prod.snd).Nodup ∧ hist.length ≤ 8 * (units + 1) + 3 * n ∧
      (∃ rest s', DinnerRun n units (hist ++ rest) s' ∧ ∀ t, s'.pc t = .finished) ∧
      ((∀ t, s.pc t = .finished) →
        (s.shared.log.map Prod.snd).Perm ((List.range units).map fun dish : ℕ => (dish : ℤ)) ∧
          ∀ m, s.shared.owner m = none) := by
  have hserved := served_of_run hrun
  refine ⟨?_, length_le_of_run hrun,
    Lts.Run.complete length_le_of_run (not_all_blocked hn) hrun, fun hfinished => ⟨?_, fun m => ?_⟩⟩
  · have hle : s.shared.eaten ≤ taken units s.shared.units := by
      rw [← hserved.dishes]
      exact Multiset.le_add_right _ _
    exact Multiset.coe_nodup.mp (Multiset.nodup_of_le hle (nodup_taken _ _))
  · have hunits := hserved.empty ⟨0, by omega⟩ (.inr (hfinished _))
    have hdishes := hserved.dishes
    have hhands : ∑ t, (s.pc t).hand = 0 := Finset.sum_eq_zero fun t _ => by
      rw [hfinished t]
      rfl
    rw [hunits, hhands, add_zero] at hdishes
    rw [List.range_eq_range']
    exact Multiset.coe_eq_coe.mp hdishes
  · by_contra howner
    obtain ⟨t, ht⟩ := Option.ne_none_iff_exists'.mp howner
    have hholds : m ∈ (s.pc t).held n t := (owned_of_run hn hrun m t).mp ht
    rw [hfinished t] at hholds
    exact hholds

/-- Two philosophers, and one dish. The first one has eaten it. -/
theorem dinner_serves_oneDish : ∃ s, DinnerRun 2 1 (List.replicate 7 (0, ())) s ∧
    (s.shared.log.map Prod.snd).Nodup ∧ 7 ≤ 8 * (1 + 1) + 3 * 2 ∧
      (∃ rest s', DinnerRun 2 1 (List.replicate 7 (0, ()) ++ rest) s' ∧
        ∀ t, s'.pc t = .finished) ∧
      ((∀ t, s.pc t = .finished) →
        (s.shared.log.map Prod.snd).Perm ((List.range 1).map fun dish : ℕ => (dish : ℤ)) ∧
          ∀ m, s.shared.owner m = none) := by
  have hinit : DinnerInit 2 1 ⟨⟨fun _ => none, 1, []⟩, fun _ => .fetching⟩ := ⟨rfl, rfl⟩
  obtain ⟨s, hrun, -⟩ := Lts.exists_run (Threads.move workerStep) (List.replicate 7 (0, ()))
    (fun s => s.shared.log = [(0, 0)]) hinit (by decide)
  exact ⟨s, hrun, dinner_serves (by decide) hrun⟩

end PosixThreads
