import CdcConnector.Replay

/-!
# Delivery at least once

A reader of a stream that starts again goes back in it, never ahead. What it
was handed over contains the stream up to its position, and where the last of
two equal operations wins it does what the stream does.
-/

set_option autoImplicit false

namespace CDC.Redelivery
open CDC.Replay

variable {α σ : Type*} {stream : List α}

/-- What was handed over, and the reader's position in the stream. -/
inductive Delivered (stream : List α) : List α → ℕ → Prop
  | start : Delivered stream [] 0
  | next (log : List α) (n : ℕ) (a : α) :
      Delivered stream log n → stream[n]? = some a → Delivered stream (log ++ [a]) (n + 1)
  | back (log : List α) (n m : ℕ) : Delivered stream log n → m ≤ n → Delivered stream log m

theorem delivered_le (log : List α) (n : ℕ) (h : Delivered stream log n) : n ≤ stream.length := by
  induction h with
  | start => exact Nat.zero_le _
  | next log n a _ ha _ =>
    obtain ⟨hn, _⟩ := List.getElem?_eq_some_iff.mp ha
    omega
  | back log n m _ hm ih => omega

theorem delivered_mem (log : List α) (n : ℕ) (h : Delivered stream log n) : log ⊆ stream := by
  induction h with
  | start => exact List.nil_subset _
  | next log n a _ ha ih =>
    intro x hx
    rcases List.mem_append.mp hx with hx | hx
    · exact ih hx
    · rw [List.mem_singleton.mp hx]
      exact List.mem_of_getElem? ha
  | back log n m _ _ ih => exact ih

/-- Nothing before the position is missing, and it came in order. -/
theorem delivered_all (log : List α) (n : ℕ) (h : Delivered stream log n) :
    (stream.take n).Sublist log := by
  induction h with
  | start => exact List.Sublist.refl []
  | next log n a _ ha ih =>
    rw [List.take_add_one, ha]
    exact ih.append (List.Sublist.refl _)
  | back log n m _ hm ih => exact (List.take_sublist_take_left hm).trans ih

theorem delivered_forward (log : List α) (n : ℕ) (h : Delivered stream log n) (part rest : List α)
    (hpart : stream.drop n = part ++ rest) : Delivered stream (log ++ part) (n + part.length) := by
  induction part generalizing log n with
  | nil =>
    rw [List.append_nil]
    exact h
  | cons a part ih =>
    have ha : stream[n]? = some a := by
      rw [← List.head?_drop, hpart]
      rfl
    have hdrop : stream.drop (n + 1) = part ++ rest := by
      rw [← List.drop_drop, hpart]
      rfl
    have hnext := ih (log ++ [a]) (n + 1) (.next log n a h ha) hdrop
    rw [List.append_assoc] at hnext
    have hlen : n + 1 + part.length = n + (a::part).length := by
      rw [List.length_cons]
      omega
    rwa [hlen] at hnext

theorem delivered_map {β : Type*} (f : α → β) (log : List α) (n : ℕ) (h : Delivered stream log n) :
    Delivered (stream.map f) (log.map f) n := by
  induction h with
  | start => exact .start
  | next log n a _ ha ih =>
    rw [List.map_append]
    exact .next _ n (f a) ih (by rw [List.getElem?_map, ha]; rfl)
  | back log n m _ hm ih => exact .back _ n m ih hm

theorem delivered_filter (keeps : α → Bool) (log : List α) (n : ℕ) (h : Delivered stream log n) :
    Delivered (stream.filter keeps) (log.filter keeps) ((stream.take n).filter keeps).length := by
  induction h with
  | start => exact .start
  | next log n a _ ha ih =>
    rw [List.filter_append, List.take_add_one, ha, Option.toList_some, List.filter_append]
    cases hkeeps : keeps a with
    | false =>
      have hnone : [a].filter keeps = [] := by simp [hkeeps]
      rw [hnone, List.append_nil, List.append_nil]
      exact ih
    | true =>
      have hone : [a].filter keeps = [a] := by simp [hkeeps]
      rw [hone, List.length_append]
      refine .next _ _ a ih ?_
      obtain ⟨hn, hget⟩ := List.getElem?_eq_some_iff.mp ha
      have hsplit : stream.filter keeps =
          (stream.take n).filter keeps ++ a :: (stream.drop (n + 1)).filter keeps := by
        calc
          stream.filter keeps = (stream.take n ++ stream.drop n).filter keeps := by
            rw [List.take_append_drop]
          _ = (stream.take n).filter keeps ++ a :: (stream.drop (n + 1)).filter keeps := by
            rw [List.drop_eq_getElem_cons hn, hget, List.filter_append, List.filter_cons,
              if_pos hkeeps]
      rw [hsplit, List.getElem?_append_right (Nat.le_refl _), Nat.sub_self]
      rfl
  | back log n m _ hm ih =>
    exact .back _ _ _ ih ((List.take_sublist_take_left hm).filter keeps).length_le

theorem lastWins_subset {fs gs : List (σ → σ)} (h : LastWins fs) (hgs : gs ⊆ fs) : LastWins gs :=
  ⟨fun f hf => h.again f (hgs hf), fun f hf g hg => h.between f (hgs hf) g (hgs hg)⟩

/-- From any position back, the rest of the stream leads where the stream
leads. -/
theorem delivered_completes {fs log : List (σ → σ)} (hfs : LastWins fs) (n : ℕ)
    (h : Delivered fs log n) (s : σ) :
    ∀ m ≤ n, applied (fs.drop m) (applied log s) = applied fs s := by
  induction h with
  | start =>
    intro m hm
    obtain rfl := Nat.le_zero.mp hm
    rfl
  | next log n f _ hf ih =>
    intro m hm
    rw [applied_append]
    by_cases hlast : m = n + 1
    · have hdrop : fs.drop n = f :: fs.drop (n + 1) := by
        obtain ⟨hn, hget⟩ := List.getElem?_eq_some_iff.mp hf
        rw [List.drop_eq_getElem_cons hn, hget]
      have ih := ih n (Nat.le_refl n)
      rw [hdrop] at ih
      rw [hlast]
      exact ih
    · have hle : m ≤ n := by omega
      have hmem : f ∈ fs.drop m := by
        apply List.mem_of_getElem? (i := n - m)
        rw [List.getElem?_drop, Nat.add_sub_cancel' hle]
        exact hf
      have hrest : LastWins (fs.drop m) := lastWins_subset hfs (List.drop_subset m fs)
      exact (first_redundant hrest f hmem _).trans (ih m hle)
  | back log n k _ hk ih => exact fun m hm => ih m (Nat.le_trans hm hk)

end CDC.Redelivery
