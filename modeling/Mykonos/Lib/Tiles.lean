import Mathlib.Tactic.Common

/-! # Pictures made of tiles

A picture gives a value to each point. Rectangles of it are painted and copied. A picture is
tiled when it falls into tiles of one size that each look like what stands in a table;
painting a tile and copying tiles from row to row change the table.
-/

namespace Mykonos.Lib

variable {α κ : Type}

/-- The points of a rectangle are painted; the new value may depend on the old. -/
def paint (x y width height : Nat) (f : Nat → Nat → α → α) (picture : Nat → Nat → α) (px py : Nat) :
    α :=
  if (x ≤ px ∧ px < x + width) ∧ y ≤ py ∧ py < y + height then f (px - x) (py - y) (picture px py)
  else picture px py

/-- A rectangle is copied to another place. -/
def copy (x y width height newX newY : Nat) (picture : Nat → Nat → α) : Nat → Nat → α :=
  paint newX newY width height (fun i j _ => picture (x + i) (y + j)) picture

variable {x y width height newX newY px py : Nat} {f : Nat → Nat → α → α} {picture : Nat → Nat → α}

theorem paint_of_inside (inside : (x ≤ px ∧ px < x + width) ∧ y ≤ py ∧ py < y + height) :
    paint x y width height f picture px py = f (px - x) (py - y) (picture px py) :=
  if_pos inside

theorem paint_of_outside (outside : ¬ ((x ≤ px ∧ px < x + width) ∧ y ≤ py ∧ py < y + height)) :
    paint x y width height f picture px py = picture px py :=
  if_neg outside

theorem copy_of_inside (inside : (newX ≤ px ∧ px < newX + width) ∧ newY ≤ py ∧ py < newY + height) :
    copy x y width height newX newY picture px py = picture (x + (px - newX)) (y + (py - newY)) :=
  if_pos inside

theorem copy_of_outside
    (outside : ¬ ((newX ≤ px ∧ px < newX + width) ∧ newY ≤ py ∧ py < newY + height)) :
    copy x y width height newX newY picture px py = picture px py :=
  if_neg outside

theorem copy_narrow (x y height newX newY : Nat) (picture : Nat → Nat → α) :
    copy x y 0 height newX newY picture = picture := by
  funext px py
  exact copy_of_outside (by omega)

section Tiles

variable {columns lines : Nat} {look : κ → Nat → Nat → α → Prop} {table : Nat → Nat → κ}

/-- Each point of a tile looks like the entry of the table. -/
def Tiled (columns lines width height : Nat) (look : κ → Nat → Nat → α → Prop)
    (table : Nat → Nat → κ) (picture : Nat → Nat → α) : Prop :=
  ∀ c < columns, ∀ l < lines, ∀ i < width, ∀ j < height,
    look (table c l) i j (picture (c * width + i) (l * height + j))

/-- A tile ends where the next begins, or before. -/
theorem tile_le (width : Nat) {c c' : Nat} (before : c < c') : c * width + width ≤ c' * width := by
  rw [← Nat.succ_mul]
  exact Nat.mul_le_mul_right width before

theorem tile_inj {c c' i i' : Nat} (inside : i < width) (inside' : i' < width)
    (same : c * width + i = c' * width + i') : c = c' ∧ i = i' := by
  rcases Nat.lt_trichotomy c c' with before | equal | behind
  · have := tile_le width before
    omega
  · subst equal
    omega
  · have := tile_le width behind
    omega

/-- A tile is told apart by its points. -/
theorem tile_iff {c c' i : Nat} (inside : i < width) :
    c * width ≤ c' * width + i ∧ c' * width + i < c * width + width ↔ c' = c := by
  rcases Nat.lt_trichotomy c' c with before | same | behind
  · have := tile_le width before
    omega
  · rw [same]
    omega
  · have := tile_le width behind
    omega

/-- Tiles up to a column are told apart by their points. -/
theorem tiles_iff {c n i : Nat} (inside : i < width) : c * width + i < n * width ↔ c < n := by
  rcases Nat.lt_or_ge c n with before | behind
  · have := tile_le width before
    omega
  · have := Nat.mul_le_mul_right width behind
    omega

/-- A tile is painted. -/
theorem Tiled.paint (tiled : Tiled columns lines width height look table picture)
    {c l : Nat} {entry : κ} (new : ∀ i < width, ∀ j < height, ∀ old, look entry i j (f i j old)) :
    Tiled columns lines width height look
      (fun c' l' => if c' = c ∧ l' = l then entry else table c' l')
      (Lib.paint (c * width) (l * height) width height f picture) := by
  intro c' column l' line i left j top
  dsimp only
  by_cases same : c' = c ∧ l' = l
  · obtain ⟨rfl, rfl⟩ := same
    rw [if_pos ⟨rfl, rfl⟩, paint_of_inside ⟨(tile_iff left).mpr rfl, (tile_iff top).mpr rfl⟩,
      Nat.add_sub_cancel_left, Nat.add_sub_cancel_left]
    exact new i left j top _
  · rw [if_neg same, paint_of_outside fun both => same ⟨(tile_iff left).mp both.1,
      (tile_iff top).mp both.2⟩]
    exact tiled c' column l' line i left j top

/-- The first tiles of a row are copied to another row. -/
theorem Tiled.copy (tiled : Tiled columns lines width height look table picture) {n l origin : Nat}
    (source : origin < lines) :
    Tiled columns lines width height look
      (fun c' l' => if c' < n ∧ l' = l then table c' origin else table c' l')
      (Lib.copy 0 (origin * height) (n * width) height 0 (l * height) picture) := by
  intro c' column l' line i left j top
  dsimp only
  by_cases same : c' < n ∧ l' = l
  · obtain ⟨before, rfl⟩ := same
    have inside : c' * width + i < 0 + n * width := by
      rw [Nat.zero_add]
      exact (tiles_iff left).mpr before
    rw [if_pos ⟨before, rfl⟩,
      copy_of_inside ⟨⟨Nat.zero_le _, inside⟩, (tile_iff top).mpr rfl⟩, Nat.sub_zero,
      Nat.zero_add, Nat.add_sub_cancel_left]
    exact tiled c' column origin source i left j top
  · rw [if_neg same, copy_of_outside]
    · exact tiled c' column l' line i left j top
    · rintro ⟨⟨_, before⟩, row⟩
      rw [Nat.zero_add] at before
      exact same ⟨(tiles_iff left).mp before, (tile_iff top).mp row⟩

theorem Tiled.congr (tiled : Tiled columns lines width height look table picture)
    {table' : Nat → Nat → κ} (same : ∀ c < columns, ∀ l < lines, table' c l = table c l) :
    Tiled columns lines width height look table' picture := by
  intro c column l line
  rw [same c column l line]
  exact tiled c column l line

end Tiles

end Mykonos.Lib
