import Ibdb.Lib.Clients
import Mathlib.Algebra.Order.BigOperators.Group.Finset
import Mathlib.Data.Fintype.Card
import Mathlib.Data.Int.DivMod
import Mathlib.Data.Nat.Cast.Basic

/-! The limit on descriptors that files keep open, shared by threads that open and close files. -/
namespace Ibdb.Log

/-- What an `int` holds after an atomic addition, which wraps around. -/
def fetchAdd (counter : ℤ) (n : ℤ) : ℤ := (counter + n).bmod (2 ^ 32)

/-- A file is constructed, or one of those of the thread is destroyed. -/
inductive FileCall
  | construct
  | destroy (i : ℕ)
  deriving DecidableEq

/-- A thread with the calls it has to make, and `has_permanent_fd_` of each file it has. It is
refused between the two halves of an `Acquire` that found nothing left. -/
structure FileUser where
  todo : List FileCall
  permanent : List Bool
  refused : Bool
  deriving DecidableEq

namespace FileUser

/-- One atomic operation on `acquires_allowed_`, with what the thread does around it. -/
def next {ι : Type*} (_ : ι) (user : FileUser) (acquiresAllowed : ℤ) : Option (FileUser × ℤ) :=
  if user.refused then
    -- the file goes without a descriptor of its own
    some (⟨user.todo, false :: user.permanent, false⟩, fetchAdd acquiresAllowed 1)
  else
    match user.todo with
    | [] => none
    | .construct :: todo =>
      if 0 < acquiresAllowed then
        some (⟨todo, true :: user.permanent, false⟩, fetchAdd acquiresAllowed (-1))
      else some (⟨todo, user.permanent, true⟩, fetchAdd acquiresAllowed (-1))
    | .destroy i :: todo =>
      match user.permanent[i]? with
      | some true => some (⟨todo, user.permanent.eraseIdx i, false⟩, fetchAdd acquiresAllowed 1)
      | some false => some (⟨todo, user.permanent.eraseIdx i, false⟩, acquiresAllowed)
      | none => none

def kept (user : FileUser) : ℕ := user.permanent.count true

/-- Whether it has taken one off the counter without an answer yet. -/
def pending (user : FileUser) : ℕ := if user.refused then 1 else 0

theorem pending_le_one (user : FileUser) : user.pending ≤ 1 := by
  unfold pending
  split_ifs <;> omega

end FileUser

abbrev Threads (ι : Type*) := Clients ι FileUser ℤ

section Threads
variable {ι : Type*} [Fintype ι]

def Threads.start (maxAcquires : ℤ) (todo : ι → List FileCall) : Threads ι :=
  ⟨maxAcquires, fun i => ⟨todo i, [], false⟩⟩

def Threads.kept (s : Threads ι) : ℕ := ∑ i, (s.own i).kept

def Threads.pending (s : Threads ι) : ℕ := ∑ i, (s.own i).pending

/-- The counter is what is left, and no more descriptors are kept than may be. -/
structure LimiterInv (maxAcquires : ℤ) (s : Threads ι) : Prop where
  counter : s.shared = maxAcquires - s.kept - s.pending
  bound : s.kept ≤ max 0 maxAcquires

theorem fetchAdd_of_range {counter n : ℤ} (hlow : -2 ^ 31 ≤ counter + n)
    (hhigh : counter + n < 2 ^ 31) : fetchAdd counter n = counter + n := by
  unfold fetchAdd
  rw [Int.bmod_eq_of_le] <;> omega

theorem count_eraseIdx_of_true {xs : List Bool} {i : ℕ} (h : xs[i]? = some true) :
    (xs.eraseIdx i).count true + 1 = xs.count true := by
  induction xs generalizing i with
  | nil => cases h
  | cons x xs ih =>
    cases i with
    | zero =>
      cases h
      simp
    | succ i =>
      have hrest := ih (i := i) h
      rw [List.eraseIdx_cons_succ, List.count_cons, List.count_cons]
      omega

theorem count_eraseIdx_of_false {xs : List Bool} {i : ℕ} (h : xs[i]? = some false) :
    (xs.eraseIdx i).count true = xs.count true := by
  induction xs generalizing i with
  | nil => cases h
  | cons x xs ih =>
    cases i with
    | zero =>
      cases h
      simp
    | succ i =>
      have hrest := ih (i := i) h
      rw [List.eraseIdx_cons_succ, List.count_cons, List.count_cons, hrest]

variable {maxAcquires : ℤ} {s t : Threads ι} {i : ι}

theorem LimiterInv.start (maxAcquires : ℤ) (todo : ι → List FileCall) :
    LimiterInv maxAcquires (Threads.start maxAcquires todo) := by
  constructor <;> simp [Threads.start, Threads.kept, Threads.pending, FileUser.kept,
    FileUser.pending]

omit [Fintype ι] in
/-- What one operation does to the counter and to the books of its thread. -/
theorem FileUser.next_books {user own : FileUser} {counter counter' : ℤ}
    (h : FileUser.next i user counter = some (own, counter'))
    (hlow : -2 ^ 31 < counter + user.pending)
    (hhigh : counter + user.kept + user.pending < 2 ^ 31) :
    counter' + own.kept + own.pending = counter + user.kept + user.pending ∧
      (own.kept ≤ user.kept ∨ 0 < counter ∧ own.kept = user.kept + 1) := by
  obtain ⟨todo, permanent, refused⟩ := user
  simp only [kept, pending] at hlow hhigh ⊢
  cases refused with
  | true =>
    cases h
    rw [fetchAdd_of_range (by simp at hlow; omega) (by simp at hhigh; omega)]
    simp
    omega
  | false =>
    simp only [Bool.false_eq_true, if_false] at hlow hhigh ⊢
    cases todo with
    | nil => cases h
    | cons call todo =>
      cases call with
      | construct =>
        simp only [next, Bool.false_eq_true, if_false] at h
        split_ifs at h with hleft
        · cases h
          rw [fetchAdd_of_range (by omega) (by omega)]
          simp
          omega
        · cases h
          rw [fetchAdd_of_range (by omega) (by omega)]
          simp
          omega
      | destroy j =>
        simp only [next, Bool.false_eq_true, if_false] at h
        split at h
        next hpermanent =>
          cases h
          have hcount := count_eraseIdx_of_true hpermanent
          rw [fetchAdd_of_range (by omega) (by omega)]
          simp
          omega
        next hpermanent =>
          cases h
          simp [count_eraseIdx_of_false hpermanent]
        next => cases h

/-- All threads but `i` may be in the middle of an `Acquire`. -/
theorem Threads.pending_lt (s : Threads ι) (i : ι) :
    s.pending < Fintype.card ι + (s.own i).pending := by
  classical
  have hothers : ∑ j ∈ Finset.univ.erase i, (s.own j).pending ≤ Fintype.card ι - 1 := by
    calc ∑ j ∈ Finset.univ.erase i, (s.own j).pending
        ≤ ∑ _j ∈ Finset.univ.erase i, 1 :=
          Finset.sum_le_sum fun j _ => (s.own j).pending_le_one
      _ = Fintype.card ι - 1 := by simp [Finset.card_erase_of_mem]
  have hcard : 0 < Fintype.card ι := Fintype.card_pos_iff.mpr ⟨i⟩
  unfold Threads.pending
  rw [← Finset.add_sum_erase _ _ (Finset.mem_univ i)]
  omega

theorem Threads.kept_ge (s : Threads ι) (i : ι) : (s.own i).kept ≤ s.kept :=
  Finset.single_le_sum (f := fun j => (s.own j).kept) (fun _ _ => Nat.zero_le _)
    (Finset.mem_univ i)

theorem Threads.pending_ge (s : Threads ι) (i : ι) : (s.own i).pending ≤ s.pending :=
  Finset.single_le_sum (f := fun j => (s.own j).pending) (fun _ _ => Nat.zero_le _)
    (Finset.mem_univ i)

variable [DecidableEq ι]

theorem LimiterInv.step (h : LimiterInv maxAcquires s)
    (hstep : Clients.step FileUser.next i s = some t) (hmax : maxAcquires < 2 ^ 31)
    (hthreads : Fintype.card ι ≤ 2 ^ 31 + min 0 maxAcquires) : LimiterInv maxAcquires t := by
  obtain ⟨own, counter, hnext, ht⟩ := Clients.step_eq_some.mp hstep
  have hkept := Clients.sum_step hnext hstep FileUser.kept
  have hpending := Clients.sum_step hnext hstep FileUser.pending
  have hothers := s.pending_lt i
  have hkept_i := s.kept_ge i
  have hpending_i := s.pending_ge i
  obtain ⟨hcounter, hbound⟩ := h
  obtain ⟨hbooks, htaken⟩ := FileUser.next_books hnext (by omega) (by omega)
  have hshared : t.shared = counter := by rw [ht]
  change t.kept + (s.own i).kept = s.kept + own.kept at hkept
  change t.pending + (s.own i).pending = s.pending + own.pending at hpending
  constructor <;> omega

/-- Whatever the order in which threads open and close files, never more of the files keep a
descriptor than the limiter allows. Its counter is what is left, less those in the middle of being
refused, so nothing leaks. A new file keeps its descriptor exactly when one is left beside those. -/
theorem limiter_bounds {todo : ι → List FileCall} {es : List ι} (hmax : maxAcquires < 2 ^ 31)
    (hthreads : Fintype.card ι ≤ 2 ^ 31 + min 0 maxAcquires)
    (hrun : run (Clients.step FileUser.next) es (Threads.start maxAcquires todo) = some s) :
    s.kept ≤ max 0 maxAcquires ∧ s.shared = maxAcquires - s.kept - s.pending ∧
      ∀ i rest t, (s.own i).refused = false → (s.own i).todo = .construct :: rest →
        Clients.step FileUser.next i s = some t →
        ((t.own i).kept = (s.own i).kept + 1 ↔ s.kept + s.pending < maxAcquires) := by
  have hinv : LimiterInv maxAcquires s :=
    Run.induct (P := fun _ s => LimiterInv maxAcquires s) (LimiterInv.start maxAcquires todo)
      (fun _ _ _ _ h hstep => h.step hstep hmax hthreads) hrun
  refine ⟨hinv.bound, hinv.counter, ?_⟩
  intro i rest t hrefused htodo hstep
  obtain ⟨own, counter, hnext, rfl⟩ := Clients.step_eq_some.mp hstep
  have hcounter := hinv.counter
  simp only [FileUser.next, hrefused, htodo, Bool.false_eq_true, if_false] at hnext
  simp only [Function.update_self]
  split_ifs at hnext with hleft
  · cases hnext
    refine iff_of_true ?_ (by omega)
    exact List.count_cons_self
  · cases hnext
    refine iff_of_false ?_ (by omega)
    exact (Nat.lt_succ_self _).ne

/-- Three threads and two descriptors: the third file goes without, and the first is closed. -/
theorem limiter_bounds_three : ∃ s : Threads (Fin 3),
    run (Clients.step FileUser.next) [0, 1, 2, 2, 0]
        (Threads.start 2 fun _ => [.construct, .destroy 0]) = some s ∧ s.kept = 1 ∧
      s.shared = 1 := by
  have hruns : ((run (Clients.step FileUser.next) [0, 1, 2, 2, 0]
      (Threads.start 2 fun _ : Fin 3 => [.construct, .destroy 0])).map
        fun s : Threads (Fin 3) => (s.kept, s.pending)) = some (1, 0) := by decide +kernel
  obtain ⟨s, hs, hbooks⟩ := Option.map_eq_some_iff.mp hruns
  obtain ⟨hkept, hpending⟩ := Prod.mk.inj hbooks
  have hbounds := limiter_bounds (by decide) (by simp) hs
  refine ⟨s, hs, hkept, ?_⟩
  rw [hbounds.2.1, hkept, hpending]
  rfl

end Threads
end Ibdb.Log
