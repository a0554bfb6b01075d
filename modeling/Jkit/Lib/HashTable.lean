import Mathlib.Data.List.Basic
import Mathlib.Data.List.Perm.Basic
import Mathlib.Data.List.Range

/-! # Hash tables with repeated keys

A table is a list of buckets; every entry stands in the bucket its hash says. A lookup reads one bucket
only. If equal keys have equal hashes (`Respects`), it finds all entries with the key and no others, up to
their order (`equalRange_eq`), whichever buckets the table has been spread over before (`build_perm`). -/

namespace Jkit.Lib.HashTable

variable {κ ν : Type*} {hash : κ → ℕ}

/-- A table whose entries stand in their buckets. -/
structure Table (κ ν : Type*) (hash : κ → ℕ) where
  buckets : List (List (κ × ν))
  pos : 0 < buckets.length
  placed : ∀ i b, buckets[i]? = some b → ∀ e ∈ b, hash e.1 % buckets.length = i

namespace Table

/-- All entries, bucket by bucket. -/
def entries (t : Table κ ν hash) : List (κ × ν) := t.buckets.flatten

/-- The bucket of a key. -/
def bucket (t : Table κ ν hash) (k : κ) : List (κ × ν) :=
  t.buckets[hash k % t.buckets.length]?.getD []

/-- The entries with a key that is equal to `k`. -/
def equalRange (equal : κ → κ → Bool) (t : Table κ ν hash) (k : κ) : List (κ × ν) :=
  (t.bucket k).filter fun e => equal k e.1

/-- The entries of a list, spread over `n` buckets. -/
def spread (hash : κ → ℕ) (n : ℕ) (l : List (κ × ν)) : List (List (κ × ν)) :=
  (List.range n).map fun i => l.filter fun e => hash e.1 % n == i

/-- A table of `n` buckets for the entries of a list. -/
def ofList (hash : κ → ℕ) (n : ℕ) (hn : 0 < n) (l : List (κ × ν)) : Table κ ν hash where
  buckets := spread hash n l
  pos := by simpa [spread] using hn
  placed i b hb e he := by
    have hlen : (spread hash n l).length = n := by simp [spread]
    obtain ⟨hi, rfl⟩ := List.getElem?_eq_some_iff.mp hb
    simp only [spread, List.getElem_map, List.getElem_range, List.mem_filter, beq_iff_eq] at he
    rw [hlen]
    exact he.2

/-- `rehash`. -/
def rehash (t : Table κ ν hash) (n : ℕ) (hn : 0 < n) : Table κ ν hash := ofList hash n hn t.entries

/-- `emplace`. -/
def emplace (t : Table κ ν hash) (k : κ) (v : ν) : Table κ ν hash where
  buckets := t.buckets.modify (hash k % t.buckets.length) ((k, v) :: ·)
  pos := by simpa using t.pos
  placed i b hb e he := by
    rw [List.length_modify]
    rw [List.getElem?_modify, Option.map_eq_map] at hb
    obtain ⟨b', hb', rfl⟩ := Option.map_eq_some_iff.mp hb
    split_ifs at he with hi
    · rcases List.mem_cons.mp he with rfl | he
      · exact hi
      · exact t.placed i b' hb' e he
    · exact t.placed i b' hb' e he

end Table

/-! ### Entries -/

/-- In buckets that are numbered from `k` on, the entries numbered `k + i` are the bucket `i`. -/
theorem filter_flatten {α : Type*} {f : α → ℕ} {bs : List (List α)} {k i : ℕ}
    (h : ∀ j b, bs[j]? = some b → ∀ e ∈ b, f e = k + j) :
    bs.flatten.filter (fun e => f e == k + i) = bs[i]?.getD [] := by
  induction bs generalizing k i with
  | nil => rfl
  | cons b bs ih =>
    have htail : ∀ j c, bs[j]? = some c → ∀ e ∈ c, f e = k + 1 + j := by
      intro j c hc e he
      have := h (j + 1) c (by simpa using hc) e he
      omega
    have hhead : ∀ e ∈ b, f e = k := fun e he => by simpa using h 0 b rfl e he
    rw [List.flatten_cons, List.filter_append]
    rcases i with _ | i
    · have hrest : bs.flatten.filter (fun e => f e == k + 0) = [] := by
        rw [List.filter_eq_nil_iff]
        intro e he
        obtain ⟨c, hc, hec⟩ := List.mem_flatten.mp he
        obtain ⟨j, hj⟩ := List.mem_iff_getElem?.mp hc
        have := htail j c hj e hec
        simp
        omega
      have hall : b.filter (fun e => f e == k + 0) = b := by
        rw [List.filter_eq_self]
        intro e he
        simp [hhead e he]
      rw [hrest, hall]
      simp
    · have hnone : b.filter (fun e => f e == k + (i + 1)) = [] := by
        rw [List.filter_eq_nil_iff]
        intro e he
        simp [hhead e he]
      have hk : k + (i + 1) = k + 1 + i := by omega
      rw [hnone, List.nil_append, hk, ih htail]
      rfl

/-- One bucket holds the entries with its hash. -/
theorem bucket_eq (t : Table κ ν hash) (k : κ) :
    t.bucket k =
      t.entries.filter fun e => hash e.1 % t.buckets.length == hash k % t.buckets.length := by
  have hplaced : ∀ j b, t.buckets[j]? = some b → ∀ e ∈ b, hash e.1 % t.buckets.length = 0 + j := by
    simpa using t.placed
  have h := filter_flatten (i := hash k % t.buckets.length) hplaced
  simpa [Table.bucket, Table.entries] using h.symm

theorem flatten_modify {α : Type*} {bs : List (List α)} {i : ℕ} (hi : i < bs.length) (x : α) :
    ((bs.modify i (x :: ·)).flatten).Perm (x :: bs.flatten) := by
  induction bs generalizing i with
  | nil => simp at hi
  | cons b bs ih =>
    rcases i with _ | i
    · simp
    · have hlt : i < bs.length := by simpa using hi
      rw [List.modify_succ_cons, List.flatten_cons, List.flatten_cons]
      exact ((ih hlt).append_left b).trans List.perm_middle

theorem entries_emplace (t : Table κ ν hash) (k : κ) (v : ν) :
    (t.emplace k v).entries.Perm ((k, v) :: t.entries) :=
  flatten_modify (Nat.mod_lt _ t.pos) (k, v)

theorem flatten_spread (f : κ → ℕ) (n m : ℕ) (l : List (κ × ν)) :
    (((List.range n).map fun i => l.filter fun e => f e.1 % m == i).flatten).Perm
      (l.filter fun e => f e.1 % m < n) := by
  induction n with
  | zero => simp
  | succ n ih =>
    rw [List.range_succ, List.map_append, List.flatten_append]
    refine (ih.append_right _).trans ?_
    have hsplit := List.filter_append_perm (fun e => decide (f e.1 % m < n))
      (l.filter fun e => decide (f e.1 % m < n + 1))
    refine List.Perm.trans (List.Perm.of_eq ?_) hsplit
    rw [List.filter_filter, List.filter_filter]
    simp only [List.map_cons, List.map_nil, List.flatten_cons, List.flatten_nil, List.append_nil]
    congr 1
    · refine List.filter_congr fun e _ => ?_
      by_cases h : f e.1 % m < n
      · simp [h, Nat.lt_succ_of_lt h]
      · simp [h]
    · refine List.filter_congr fun e _ => ?_
      by_cases h : f e.1 % m = n
      · simp [h]
      · have : f e.1 % m < n ∨ ¬f e.1 % m < n + 1 := by omega
        rcases this with h' | h' <;> simp [h, h']

theorem entries_rehash (t : Table κ ν hash) (n : ℕ) (hn : 0 < n) :
    (t.rehash n hn).entries.Perm t.entries := by
  have h := flatten_spread hash n n t.entries
  have hall : (t.entries.filter fun e => decide (hash e.1 % n < n)) = t.entries := by
    rw [List.filter_eq_self]
    intro e _
    simpa using Nat.mod_lt _ hn
  rw [hall] at h
  exact h

/-! ### Lookups -/

/-- Equal keys have equal hashes. -/
def Respects (hash : κ → ℕ) (equal : κ → κ → Bool) : Prop :=
  ∀ a b, equal a b = true → hash a = hash b

/-- **A lookup finds the entries with the key and no others.** -/
theorem equalRange_eq {equal : κ → κ → Bool} (h : Respects hash equal) (t : Table κ ν hash) (k : κ) :
    t.equalRange equal k = t.entries.filter fun e => equal k e.1 := by
  unfold Table.equalRange
  rw [bucket_eq, List.filter_filter]
  refine List.filter_congr fun e _ => ?_
  by_cases he : equal k e.1 = true
  · simp [he, h _ _ he]
  · simp [he]

/-! ### Whole runs -/

/-- The operations on a table. -/
inductive Op (κ ν : Type*)
  | emplace (k : κ) (v : ν)
  | rehash (n : ℕ) (hn : 0 < n)

/-- What is put into the table. -/
def Op.entry? : Op κ ν → Option (κ × ν)
  | .emplace k v => some (k, v)
  | .rehash _ _ => none

def Table.apply (t : Table κ ν hash) : Op κ ν → Table κ ν hash
  | .emplace k v => t.emplace k v
  | .rehash n hn => t.rehash n hn

/-- The table after some operations, from an empty one with `n` buckets. -/
def build (hash : κ → ℕ) (n : ℕ) (hn : 0 < n) (ops : List (Op κ ν)) : Table κ ν hash :=
  ops.foldl Table.apply (Table.ofList hash n hn [])

theorem entries_foldl (t : Table κ ν hash) (ops : List (Op κ ν)) :
    (ops.foldl Table.apply t).entries.Perm (t.entries ++ ops.filterMap Op.entry?) := by
  induction ops generalizing t with
  | nil => simp
  | cons op ops ih =>
    refine (ih _).trans ?_
    rcases op with ⟨k, v⟩ | ⟨n, hn⟩
    · exact ((entries_emplace t k v).append_right _).trans List.perm_middle.symm
    · exact (entries_rehash t n hn).append_right _

/-- **A table holds what was put into it**, and a lookup finds the entries with its key. -/
theorem build_perm {equal : κ → κ → Bool} (h : Respects hash equal) {n : ℕ} (hn : 0 < n)
    (ops : List (Op κ ν)) (k : κ) :
    ((build hash n hn ops).equalRange equal k).Perm
      ((ops.filterMap Op.entry?).filter fun e => equal k e.1) := by
  rw [equalRange_eq h]
  have hempty : (Table.ofList hash n hn ([] : List (κ × ν))).entries = [] := by
    simp [Table.entries, Table.ofList, Table.spread]
  have hperm := entries_foldl (Table.ofList hash n hn ([] : List (κ × ν))) ops
  rw [hempty, List.nil_append] at hperm
  exact hperm.filter _

end Jkit.Lib.HashTable
