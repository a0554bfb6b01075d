import Mathlib.Data.List.Range
import Mathlib.Data.List.Nodup

/-! # The threads of `start` and `stop`

`start` appends `m_thread_count` threads to `m_threads`, `stop` joins the first `m_thread_count`
entries and leaves the vector as it is. A thread is its number in the order of creation; `joins` is the
history of the calls of `join`. A `join` of a thread that has been joined throws, and the exception
leaves `stop`.

`restartable_iff`: a run `start(); stop(); start(); …` is as it should be exactly up to its second
`stop`. -/

namespace Jkit.Http.Server.Threads

/-! ### The model -/

/-- `m_threads`, the number of threads created so far, and the calls of `join`. -/
structure Pool where
  threads : List ℕ := []
  created : ℕ := 0
  joins : List ℕ := []
deriving DecidableEq

/-- The thread part of `start`, with `m_thread_count = n`. -/
def start (n : ℕ) (p : Pool) : Pool :=
  { p with threads := p.threads ++ List.range' p.created n, created := p.created + n }

/-- `m_threads[i].join()`; `false` if it throws. -/
def join (i : ℕ) (p : Pool) : Pool × Bool :=
  match p.threads[i]? with
  | some t => ({ p with joins := p.joins ++ [t] }, decide (t ∉ p.joins))
  | none => (p, false)

/-- The loop of `stop` from the position `i` on, for `m` more threads. -/
def joinFrom (i : ℕ) : ℕ → Pool → Pool × Bool
  | 0, p => (p, true)
  | m + 1, p =>
    match join i p with
    | (p', true) => joinFrom (i + 1) m p'
    | (p', false) => (p', false)

/-- The thread part of `stop`; `false` if an exception leaves it. -/
def stop (n : ℕ) (p : Pool) : Pool × Bool := joinFrom 0 n p

/-- The state after `k` calls of the run `start(); stop(); start(); stop(); …`. -/
def after (n : ℕ) : ℕ → Pool
  | 0 => {}
  | k + 1 => if k % 2 = 0 then start n (after n k) else (stop n (after n k)).1

/-- Call `j`, a `stop`, joins exactly the threads of the `start` before it, none of them joined before,
and with that every thread created so far has been joined exactly once. -/
structure StopOk (n j : ℕ) : Prop where
  noThrow : (stop n (after n j)).2 = true
  own : (after n (j + 1)).joins = (after n j).joins ++ List.range' (after n (j - 1)).created n
  once : ∀ t < (after n (j + 1)).created, (after n (j + 1)).joins.count t = 1

/-- Every `stop` of the first `k` calls is as it should be. -/
def Restartable (n k : ℕ) : Prop := ∀ j < k, j % 2 = 1 → StopOk n j

/-! ### The first round -/

/-- The loop joins the threads it finds, as long as they have not been joined. -/
theorem joinFrom_fresh {l r : List ℕ} {p : Pool} {i : ℕ} (hl : p.threads.drop i = l ++ r)
    (hnd : l.Nodup) (hnew : ∀ t ∈ l, t ∉ p.joins) :
    joinFrom i l.length p = ({ p with joins := p.joins ++ l }, true) := by
  induction l generalizing p i with
  | nil => simp [joinFrom]
  | cons t l ih =>
    obtain ⟨ht, hnd⟩ := List.nodup_cons.mp hnd
    have hget : p.threads[i]? = some t := by
      have := congrArg List.head? hl
      simpa [List.head?_drop] using this
    have htail : p.threads.drop (i + 1) = l ++ r := by
      have := congrArg List.tail hl
      simpa [List.tail_drop] using this
    have hj : join i p = ({ p with joins := p.joins ++ [t] }, true) := by
      simp [join, hget, hnew t (by simp)]
    have hnew' : ∀ u ∈ l, u ∉ p.joins ++ [t] := fun u hu => by
      have hut : u ≠ t := by rintro rfl; exact ht hu
      simp [hnew u (List.mem_cons_of_mem _ hu), hut]
    have hrest := ih (p := { p with joins := p.joins ++ [t] }) htail hnd hnew'
    rw [List.length_cons, joinFrom, hj]
    simpa using hrest

theorem after_one (n : ℕ) : after n 1 = { threads := List.range' 0 n, created := n } := by
  simp [after, start]

theorem stop_after_one (n : ℕ) :
    stop n (after n 1) =
      ({ threads := List.range' 0 n, created := n, joins := List.range' 0 n }, true) := by
  have h := joinFrom_fresh (l := List.range' 0 n) (r := []) (i := 0) (p := after n 1)
    (by simp [after_one]) List.nodup_range' (by simp [after_one])
  rw [List.length_range', after_one] at h
  rw [stop, after_one, h]
  rfl

theorem stopOk_one (n : ℕ) : StopOk n 1 := by
  have h2 : after n 2 = { threads := List.range' 0 n, created := n, joins := List.range' 0 n } := by
    rw [after, if_neg (by decide), stop_after_one]
  refine ⟨?_, ?_, ?_⟩
  · rw [stop_after_one]
  · rw [h2, after_one]
    simp [after]
  · intro t ht
    rw [h2] at ht ⊢
    exact List.count_eq_one_of_mem List.nodup_range' (by simpa [List.mem_range'_1] using ht)

/-! ### The second round -/

theorem after_three (n : ℕ) :
    after n 3 = { threads := List.range' 0 n ++ List.range' n n, created := n + n
                  joins := List.range' 0 n } := by
  have h2 : after n 2 = { threads := List.range' 0 n, created := n, joins := List.range' 0 n } := by
    rw [after, if_neg (by decide), stop_after_one]
  rw [after, if_pos (by decide), h2]
  rfl

/-- The second `stop` starts with a thread of the first round. -/
theorem stop_after_three {n : ℕ} (hn : 1 ≤ n) : (stop n (after n 3)).2 = false := by
  obtain ⟨m, rfl⟩ : ∃ m, n = m + 1 := ⟨n - 1, by omega⟩
  rw [after_three, stop, joinFrom]
  simp [join, List.range'_succ]

/-- **How far a server can be restarted**: up to its second `stop`. -/
theorem restartable_iff (n k : ℕ) (hn : 1 ≤ n) : Restartable n k ↔ k < 4 := by
  constructor
  · intro h
    by_contra hk
    have h3 := (h 3 (by omega) (by decide)).noThrow
    rw [stop_after_three hn] at h3
    cases h3
  · intro hk j hj hodd
    have : j = 1 := by omega
    subst this
    exact stopOk_one n

theorem restartable_iff_one_round : 1 ≤ 2 ∧ (Restartable 2 3 ↔ 3 < 4) :=
  ⟨by decide, restartable_iff 2 3 (by decide)⟩

/-- `start(); stop(); start(); stop();` with one thread: the second `stop` joins the first thread
again, and the second thread is never joined. -/
theorem not_restartable :
    after 1 4 = { threads := [0, 1], created := 2, joins := [0, 0] } ∧
      (stop 1 (after 1 3)).2 = false ∧ ¬ Restartable 1 4 := by
  refine ⟨by decide, by decide, fun h => ?_⟩
  exact absurd (h 3 (by decide) (by decide)).noThrow (by decide)

end Jkit.Http.Server.Threads
