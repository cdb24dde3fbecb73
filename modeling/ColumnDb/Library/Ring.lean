import Mathlib.Tactic

/-!
Circular arrays as queues.

* `ring slots head n`: the `n` entries of a circular array from the place `head` on, in order.
* `ring_push`: writing behind the last of fewer than `cap` entries appends one.
* `ring_pop`: moving the head takes the first entry away.
* `ring_push_over`: with `cap` entries or more, the write lands on an entry that is queued,
  and the array then shows the new entry twice.
-/

namespace ColumnDb

variable {α : Type} {cap : ℕ} [NeZero cap]

/-- The `n` entries of a circular array from `head` on. -/
def ring (slots : Fin cap → α) (head n : ℕ) : List α :=
  (List.range n).map fun i => slots (Fin.ofNat cap (head + i))

@[simp] lemma length_ring (slots : Fin cap → α) (head n : ℕ) : (ring slots head n).length = n := by
  rw [ring, List.length_map, List.length_range]

lemma getElem?_ring (slots : Fin cap → α) (head : ℕ) {n i : ℕ} (hi : i < n) :
    (ring slots head n)[i]? = some (slots (Fin.ofNat cap (head + i))) := by
  rw [ring, List.getElem?_map, List.getElem?_range hi, Option.map_some]

lemma ring_succ (slots : Fin cap → α) (head n : ℕ) :
    ring slots head (n + 1) = ring slots head n ++ [slots (Fin.ofNat cap (head + n))] := by
  rw [ring, List.range_succ, List.map_append, List.map_singleton, ring]

/-- Places less than a turn apart are different. -/
lemma ofNat_add_ne {head i n : ℕ} (hin : i < n) (hn : n < cap) :
    Fin.ofNat cap (head + i) ≠ Fin.ofNat cap (head + n) := by
  intro h
  have hmod : head + i ≡ head + n [MOD cap] := congrArg Fin.val h
  have hmod' : i % cap = n % cap := Nat.ModEq.add_left_cancel' head hmod
  rw [Nat.mod_eq_of_lt (by omega), Nat.mod_eq_of_lt hn] at hmod'
  omega

/-- Places a turn apart are the same. -/
lemma ofNat_add_turn (head i : ℕ) :
    Fin.ofNat cap (head + (i + cap)) = Fin.ofNat cap (head + i) :=
  Fin.ext (by simp [Fin.ofNat, ← Nat.add_assoc])

/-- **Appending**: with fewer than `cap` entries, the write behind the last one keeps the
others. -/
theorem ring_push (slots : Fin cap → α) (head : ℕ) {n : ℕ} (hn : n < cap) (x : α) :
    ring (Function.update slots (Fin.ofNat cap (head + n)) x) head (n + 1)
      = ring slots head n ++ [x] := by
  rw [ring_succ, Function.update_self, ring, ring]
  refine congrArg (· ++ [x]) (List.map_congr_left fun i hi => ?_)
  rw [Function.update_of_ne (ofNat_add_ne (List.mem_range.mp hi) hn)]

/-- **Taking the first entry**: the head moves one place on. -/
theorem ring_pop (slots : Fin cap → α) {head : ℕ} (hhead : head < cap) (n : ℕ) :
    ring slots head (n + 1)
      = slots ⟨head, hhead⟩ :: ring slots ((head + 1) % cap) n := by
  rw [ring, List.range_succ_eq_map, List.map_cons, List.map_map, ring]
  refine congrArg₂ _ ?_ (List.map_congr_left fun i _ => ?_)
  · exact congrArg slots (Fin.ext (Nat.mod_eq_of_lt hhead))
  · refine congrArg slots (Fin.ext ?_)
    simp only [Fin.ofNat, Nat.succ_eq_add_one]
    rw [Nat.mod_add_mod]
    exact congrArg (· % cap) (by omega)

/-- **Appending to a full array**: the new entry stands at two places. -/
theorem ring_push_over (slots : Fin cap → α) (head : ℕ) {n : ℕ} (hn : cap ≤ n) (x : α) :
    ¬ (ring (Function.update slots (Fin.ofNat cap (head + n)) x) head (n + 1)).Nodup := by
  intro hnodup
  have hturn : Fin.ofNat cap (head + (n - cap)) = Fin.ofNat cap (head + n) := by
    rw [← ofNat_add_turn head (n - cap), Nat.sub_add_cancel hn]
  have hcap : 0 < cap := NeZero.pos cap
  have hlast := getElem?_ring (Function.update slots (Fin.ofNat cap (head + n)) x) head
    (show n < n + 1 by omega)
  have hfirst := getElem?_ring (Function.update slots (Fin.ofNat cap (head + n)) x) head
    (show n - cap < n + 1 by omega)
  rw [hturn, ← hlast] at hfirst
  have := (List.getElem?_inj (by rw [length_ring]; omega) hnodup).mp hfirst
  omega

end ColumnDb
