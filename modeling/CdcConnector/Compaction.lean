import Mathlib.Data.List.Induction
import Mathlib.Logic.Function.Basic

/-!
# Compacted logs

A compacted log keeps the order of its records and for each key the last one
written. Readers that only keep the last value of each key see no difference.
-/

set_option autoImplicit false

namespace CDC.Compaction

variable {κ ν : Type*} [DecidableEq κ]

def latest (key : κ) : List (κ × ν) → Option ν
  | [] => none
  | r::log => (latest key log).or (if r.1 = key then some r.2 else none)

def collect (log : List (κ × ν)) (known : κ → Option ν) : κ → Option ν :=
  log.foldl (fun known r => Function.update known r.1 (some r.2)) known

structure Compacts (full kept : List (κ × ν)) : Prop where
  sublist : kept.Sublist full
  latest_eq : ∀ key, latest key kept = latest key full

/-- Every record goes that a later one of its key overwrites. -/
def compact : List (κ × ν) → List (κ × ν)
  | [] => []
  | r::log => if (latest r.1 log).isSome then compact log else r :: compact log

theorem latest_append (key : κ) (log log' : List (κ × ν)) :
    latest key (log ++ log') = (latest key log').or (latest key log) := by
  induction log with
  | nil => simp [latest]
  | cons r log ih => rw [List.cons_append, latest, ih, latest, Option.or_assoc]

theorem latest_mem (key : κ) (log : List (κ × ν)) (value : ν) (h : latest key log = some value) :
    (key, value) ∈ log := by
  induction log with
  | nil => cases h
  | cons r log ih =>
    rw [latest, Option.or_eq_some_iff] at h
    rcases h with h | ⟨_, h⟩
    · exact List.mem_cons_of_mem r (ih h)
    · split_ifs at h with hkey
      cases h
      rw [← hkey]
      exact List.mem_cons_self

theorem latest_none (key : κ) (log : List (κ × ν)) :
    latest key log = none ↔ ∀ r ∈ log, r.1 ≠ key := by
  induction log with
  | nil => simp [latest]
  | cons r log ih => simp [latest, ih, and_comm]

theorem collect_latest (log : List (κ × ν)) (known : κ → Option ν) (key : κ) :
    collect log known key = (latest key log).or (known key) := by
  induction log generalizing known with
  | nil => rfl
  | cons r log ih =>
    show collect log (Function.update known r.1 (some r.2)) key = _
    rw [ih, latest, Option.or_assoc]
    congr 1
    by_cases h : r.1 = key
    · rw [if_pos h, ← h, Function.update_self]
      rfl
    · rw [if_neg h, Function.update_of_ne (fun he => h he.symm)]
      rfl

theorem compacts_refl (log : List (κ × ν)) : Compacts log log :=
  ⟨List.Sublist.refl log, fun _ => rfl⟩

theorem compact_latest (log : List (κ × ν)) (key : κ) :
    latest key (compact log) = latest key log := by
  induction log with
  | nil => rfl
  | cons r log ih =>
    rw [compact]
    split_ifs with h
    · rw [ih, latest]
      by_cases hkey : r.1 = key
      · obtain ⟨value, hvalue⟩ := Option.isSome_iff_exists.mp h
        rw [← hkey, hvalue]
        rfl
      · rw [if_neg hkey, Option.or_none]
    · rw [latest, latest, ih]

theorem compacts_compact (log : List (κ × ν)) : Compacts log (compact log) := by
  refine ⟨?_, compact_latest log⟩
  induction log with
  | nil => exact List.Sublist.refl []
  | cons r log ih =>
    rw [compact]
    split_ifs
    · exact ih.cons r
    · exact ih.cons_cons r

theorem collect_subset (log : List (κ × ν)) :
    ∀ key value, collect log (fun _ => none) key = some value → (key, value) ∈ log := by
  intro key value h
  rw [collect_latest, Option.or_none] at h
  exact latest_mem key log value h

theorem latest_filter (keeps : κ → Bool) (key : κ) (hkey : keeps key = true) (log : List (κ × ν)) :
    latest key (log.filter (fun r => keeps r.1)) = latest key log := by
  induction log with
  | nil => rfl
  | cons r log ih =>
    rw [List.filter_cons]
    by_cases hr : keeps r.1 = true
    · rw [if_pos hr, latest, latest, ih]
    · have hne : r.1 ≠ key := fun he => hr (he ▸ hkey)
      rw [if_neg hr, latest, ih, if_neg hne, Option.or_none]

theorem latest_map {κ' ν' : Type*} [DecidableEq κ'] (f : κ → κ') (hf : Function.Injective f)
    (g : ν → ν') (key : κ) (log : List (κ × ν)) :
    latest (f key) (log.map (Prod.map f g)) = (latest key log).map g := by
  induction log with
  | nil => rfl
  | cons r log ih =>
    have hsame : (Prod.map f g r).1 = f key ↔ r.1 = key := hf.eq_iff
    rw [List.map_cons, latest, latest, ih, Option.map_or]
    congr 1
    by_cases h : r.1 = key
    · rw [if_pos (hsame.mpr h), if_pos h]
      rfl
    · rw [if_neg (fun he => h (hsame.mp he)), if_neg h]
      rfl

section Partitions
variable {ι : Type*} [DecidableEq ι] (partitionOf : κ → ι)

def CompactsEach (full kept : List (κ × ν)) : Prop :=
  ∀ p, Compacts (full.filter (fun r => partitionOf r.1 = p)) (kept.filter (fun r => partitionOf r.1 = p))

variable {partitionOf} {full kept : List (κ × ν)} (h : CompactsEach partitionOf full kept)
include h

theorem compactsEach_latest (key : κ) : latest key kept = latest key full := by
  have hkey : decide (partitionOf key = partitionOf key) = true := by simp
  rw [← latest_filter (fun k => partitionOf k = partitionOf key) key hkey kept,
    ← latest_filter (fun k => partitionOf k = partitionOf key) key hkey full]
  exact (h (partitionOf key)).latest_eq key

omit h in
theorem compactsEach_one (h : Compacts full kept) : CompactsEach (fun _ => ()) full kept := by
  intro p
  rw [List.filter_eq_self.mpr (by simp), List.filter_eq_self.mpr (by simp)]
  exact h

end Partitions

theorem last_of_single_key {full kept : List (κ × ν)} (h : Compacts full kept) (key : κ)
    (hkey : ∀ r ∈ full, r.1 = key) : kept.getLast? = full.getLast? := by
  have hlast : ∀ log : List (κ × ν), (∀ r ∈ log, r.1 = key) →
      log.getLast? = (latest key log).map (fun value => (key, value)) := by
    intro log hlog
    induction log using List.reverseRecOn with
    | nil => rfl
    | append_singleton log r _ =>
      have hr := hlog r (by simp)
      have hlast : latest key [r] = some r.2 := by rw [latest, latest, if_pos hr, Option.none_or]
      rw [latest_append, hlast, List.getLast?_concat, Option.some_or, Option.map_some, ← hr]
  rw [hlast kept (fun r hr => hkey r (h.sublist.subset hr)), hlast full hkey, h.latest_eq]

end CDC.Compaction
