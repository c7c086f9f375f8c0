import Mathlib.Logic.Function.Iterate
import Mathlib.Data.List.Nodup
import Mathlib.Data.Nat.ModEq
import Mathlib.Tactic.SplitIfs

/-!
A walk downwards through the numbers between two others, which leaves one of them out
and goes on from the top behind the lowest one. It is a cycle: the numbers are taken
in the order of their places.
-/
namespace Succinct.DescendingWalks

/-- From a number between first and last to the next one that is not own. -/
def walkStep (first own last cur : ℕ) : ℕ :=
  let below := if cur - 1 = first then last - 1 else cur - 1
  if below = own then below - 1 else below

def cycle (first last : ℕ) : ℕ := last - first - 2

def place (first own last i : ℕ) : ℕ :=
  if i < own - first - 1 then own - 1 - i else last - 1 - (i - (own - first - 1))

/-- There are other numbers, and own is neither the lowest one nor outside. -/
structure Between (first own last : ℕ) : Prop where
  low : first + 1 < own
  high : own < last
  room : 0 < cycle first last

variable {first own last : ℕ}

theorem walkStep_own (h : Between first own last) :
    walkStep first own last own = place first own last 0 := by
  obtain ⟨hlow, hhigh, hroom⟩ := h
  unfold walkStep place
  unfold cycle at hroom
  dsimp only
  split_ifs <;> omega

theorem walkStep_place (h : Between first own last) {i : ℕ} (hi : i < cycle first last) :
    walkStep first own last (place first own last i) =
      place first own last ((i + 1) % cycle first last) := by
  obtain ⟨hlow, hhigh, hroom⟩ := h
  have hnext : (i + 1) % cycle first last = if i + 1 = cycle first last then 0 else i + 1 := by
    by_cases heq : i + 1 = cycle first last
    · rw [if_pos heq]
      rw [heq, Nat.mod_self]
    · rw [if_neg heq]
      exact Nat.mod_eq_of_lt (by omega)
  rw [hnext]
  unfold walkStep place
  unfold cycle at hi hroom ⊢
  dsimp only
  split_ifs <;> omega

/-- The number behind k + 1 steps. -/
theorem iterate_walkStep (h : Between first own last) (k : ℕ) :
    (walkStep first own last)^[k + 1] own = place first own last (k % cycle first last) := by
  induction k with
  | zero =>
    rw [Nat.zero_mod]
    exact walkStep_own h
  | succ k ih =>
    rw [Function.iterate_succ_apply', ih, walkStep_place h (Nat.mod_lt k h.room), Nat.mod_add_mod]

theorem place_between (h : Between first own last) {i : ℕ} (hi : i < cycle first last) :
    first < place first own last i ∧ place first own last i < last ∧
    place first own last i ≠ own := by
  obtain ⟨hlow, hhigh, hroom⟩ := h
  unfold place
  unfold cycle at hi
  split_ifs <;> omega

theorem place_injective (h : Between first own last) {i j : ℕ} (hi : i < cycle first last)
    (hj : j < cycle first last)
    (heq : place first own last i = place first own last j) : i = j := by
  obtain ⟨hlow, hhigh, hroom⟩ := h
  unfold place at heq
  unfold cycle at hi hj
  split_ifs at heq <;> omega

theorem exists_place (h : Between first own last) {v : ℕ} (hfirst : first < v)
    (hlast : v < last) (hown : v ≠ own) :
    ∃ i, i < cycle first last ∧ place first own last i = v := by
  obtain ⟨hlow, hhigh, hroom⟩ := h
  unfold place cycle
  by_cases hbelow : v < own
  · refine ⟨own - 1 - v, by omega, ?_⟩
    rw [if_pos (by omega)]
    omega
  · refine ⟨own - first - 1 + (last - 1 - v), by omega, ?_⟩
    rw [if_neg (by omega)]
    omega

/-- The places that so many steps in a row come to, from any of them on. -/
theorem window_mod {m : ℕ} (hm : 0 < m) (k : ℕ) {i : ℕ} (hi : i < m) : ∃ j, j < m ∧
    (k + j) % m = i := by
  refine ⟨(i + (m - k % m)) % m, Nat.mod_lt _ hm, ?_⟩
  have hk := Nat.mod_lt k hm
  rw [Nat.add_mod, Nat.mod_mod, ← Nat.add_mod, ← Nat.mod_add_mod]
  have hsum : k % m + (i + (m - k % m)) = i + m := by omega
  rw [hsum, Nat.add_mod_right, Nat.mod_eq_of_lt hi]

theorem window_injective {m k i j : ℕ} (hi : i < m) (hj : j < m)
    (h : (k + i) % m = (k + j) % m) : i = j := by
  have hmod : Nat.ModEq m i j := Nat.ModEq.add_left_cancel (Nat.ModEq.refl k) h
  exact hmod.eq_of_lt_of_lt hi hj

/-- A cycle of steps comes to every number once. -/
theorem window_nodup (h : Between first own last) (k : ℕ) :
    ((List.range (cycle first last)).map fun i =>
      (walkStep first own last)^[k + i + 1] own).Nodup := by
  refine List.Nodup.map_on ?_ List.nodup_range
  intro i hi j hj heq
  rw [List.mem_range] at hi hj
  rw [iterate_walkStep h, iterate_walkStep h] at heq
  exact window_injective hi hj (place_injective h (Nat.mod_lt _ h.room) (Nat.mod_lt _ h.room) heq)

theorem mem_window (h : Between first own last) (k : ℕ) {v : ℕ}
    (hfirst : first < v) (hlast : v < last)
    (hown : v ≠ own) : ∃ i < cycle first last, (walkStep first own last)^[k + i + 1] own = v := by
  obtain ⟨i, hi, rfl⟩ := exists_place h hfirst hlast hown
  obtain ⟨j, hj, hmod⟩ := window_mod h.room k hi
  exact ⟨j, hj, by rw [iterate_walkStep h, hmod]⟩

/-- Where own is the lowest number, the walk comes down to it from the top. -/
theorem iterate_from_lowest (hfirst : own = first + 1) {k : ℕ} (hk : k < cycle first last) :
    (walkStep first own last)^[k + 1] own = last - 1 - k := by
  induction k with
  | zero =>
    change walkStep first own last own = last - 1 - 0
    unfold walkStep
    unfold cycle at hk
    dsimp only
    split_ifs <;> omega
  | succ k ih =>
    rw [Function.iterate_succ_apply', ih (by omega)]
    unfold walkStep
    unfold cycle at hk
    dsimp only
    split_ifs <;> omega

/-- It steps over own to first. -/
theorem iterate_to_first (hfirst : own = first + 1) (hroom : 0 < cycle first last) :
    (walkStep first own last)^[cycle first last + 1] own = first := by
  have hlowest := iterate_from_lowest hfirst (Nat.sub_lt hroom Nat.one_pos)
  rw [Nat.sub_add_cancel hroom] at hlowest
  rw [Function.iterate_succ_apply', hlowest]
  unfold walkStep
  unfold cycle at hroom ⊢
  dsimp only
  split_ifs <;> omega

end Succinct.DescendingWalks
