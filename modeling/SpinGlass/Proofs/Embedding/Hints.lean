import SpinGlass.Embedding.Layout
import SpinGlass.Proofs.Coefficient
import SpinGlass.Proofs.Hardware.Chimera
import SpinGlass.Proofs.Table.Lookup
import Mathlib.Algebra.BigOperators.Ring.List
import Mathlib.Order.Bounds.Image
import Mathlib.Tactic.FieldSimp

/-!
# The geometry of layout hints

The points of the variables are moved to the origin, scaled into the grid by one factor for both
directions, and rounded. The factor is at most what fits either direction, so the rounded numbers
are in the grid before they are cut off at its edge. Moving all places, or stretching the plane,
moves the mean and the extremes of every list of places along, and the rest of the computation does
not see it.
-/

namespace SpinGlass

namespace Layout

section Extent

variable {values : List ℚ} {extent : Option (ℚ × ℚ)} {cells : Nat}
  {least greatest scale c v w : ℚ}

/-- The bounds of some numbers are the least and the greatest of them. -/
theorem bounds_spec (hne : values ≠ []) : ∃ least greatest, bounds values = some (least, greatest) ∧
    IsLeast {v | v ∈ values} least ∧ IsGreatest {v | v ∈ values} greatest := by
  induction values using List.reverseRecOn with
  | nil => exact absurd rfl hne
  | append_singleton rest v ih =>
    rcases eq_or_ne rest [] with rfl | hrest
    · have hset : {u | u ∈ [] ++ [v]} = {v} := by
        ext u
        simp
      exact ⟨v, v, by simp [bounds], hset ▸ isLeast_singleton, hset ▸ isGreatest_singleton⟩
    · obtain ⟨least, greatest, hbounds, hleast, hgreatest⟩ := ih hrest
      have hset : {u | u ∈ rest ++ [v]} = insert v {u | u ∈ rest} := by
        ext u
        simp [or_comm]
      refine ⟨min v least, max v greatest, ?_, hset ▸ hleast.insert v, hset ▸ hgreatest.insert v⟩
      unfold bounds at hbounds ⊢
      rw [List.foldl_append, hbounds]
      simp [Coefficient.smaller_eq_min, Coefficient.larger_eq_max, min_comm, max_comm]

theorem bounds_eq (hleast : IsLeast {v | v ∈ values} least)
    (hgreatest : IsGreatest {v | v ∈ values} greatest) :
    bounds values = some (least, greatest) := by
  obtain ⟨l, g, hbounds, hl, hg⟩ := bounds_spec (List.ne_nil_of_mem hleast.1)
  rw [hbounds, hl.unique hleast, hg.unique hgreatest]

/-- A change of scale and origin moves the bounds along. -/
theorem bounds_map (hc : 0 < c) (a : ℚ) (values : List ℚ) :
    bounds (values.map (c * · + a)) = (bounds values).map (Prod.map (c * · + a) (c * · + a)) := by
  rcases eq_or_ne values [] with rfl | hne
  · rfl
  · obtain ⟨least, greatest, hbounds, hleast, hgreatest⟩ := bounds_spec hne
    have hmono : Monotone (c * · + a) := fun x y hxy =>
      add_le_add_left (mul_le_mul_of_nonneg_left hxy hc.le) a
    have himage : {v | v ∈ values.map (c * · + a)} = (c * · + a) '' {v | v ∈ values} := by
      ext v
      simp
    rw [hbounds]
    exact bounds_eq (himage ▸ hmono.map_isLeast hleast) (himage ▸ hmono.map_isGreatest hgreatest)

/-- A scale stretches an extent at most from the first of some cells to the last. -/
structure Fits (scale : ℚ) (extent : Option (ℚ × ℚ)) (cells : Nat) : Prop where
  nonneg : 0 ≤ scale
  width_le : ∀ least greatest, extent = some (least, greatest) →
    (greatest - least) * scale ≤ (cells - 1 : Nat)

/-- The cell of a number in one direction, as if the cells did not end. -/
def cellBeyond (extent : Option (ℚ × ℚ)) (scale v : ℚ) : Nat :=
  match extent with
  | some (least, _) => Coefficient.nearestNat ((v - least) * scale)
  | none => 0

theorem cellAlong_eq_min :
    cellAlong extent scale cells v = min (cellBeyond extent scale v) (cells - 1) := by
  cases extent with
  | none => simp [cellAlong, cellBeyond]
  | some ends => rfl

theorem cellBeyond_mono (hscale : 0 ≤ scale) (hvw : v ≤ w) :
    cellBeyond extent scale v ≤ cellBeyond extent scale w := by
  cases extent with
  | none => exact le_refl 0
  | some ends =>
    exact Coefficient.nearestNat_mono
      (mul_le_mul_of_nonneg_right (sub_le_sub_right hvw _) hscale)

/-- A scale that fits leaves nothing to cut off. -/
theorem Fits.cellBeyond_le (h : Fits scale (bounds values) cells) (hv : v ∈ values) :
    cellBeyond (bounds values) scale v ≤ cells - 1 := by
  obtain ⟨least, greatest, hbounds, _, hgreatest⟩ := bounds_spec (List.ne_nil_of_mem hv)
  rw [hbounds]
  refine Coefficient.nearestNat_le_of_le ?_
  calc (v - least) * scale
      ≤ (greatest - least) * scale :=
        mul_le_mul_of_nonneg_right (sub_le_sub_right (hgreatest.2 hv) _) h.nonneg
    _ ≤ (cells - 1 : Nat) := h.width_le least greatest hbounds

theorem fit_eq (least greatest : ℚ) (cells : Nat) : fit (some (least, greatest)) cells =
    if least < greatest then some ((cells - 1 : Nat) / (greatest - least)) else none := rfl

theorem fit_nonneg (h : fit extent cells = some scale) : 0 ≤ scale := by
  obtain _ | ⟨least, greatest⟩ := extent
  · cases h
  · rw [fit_eq] at h
    split at h
    · next hlt =>
      cases h
      exact div_nonneg (Nat.cast_nonneg _) (sub_nonneg.mpr hlt.le)
    · cases h

/-- What is no larger than the scale of an extent fits. -/
theorem fits_of_le (hscale : 0 ≤ scale) (hle : ∀ s, fit extent cells = some s → scale ≤ s) :
    Fits scale extent cells := by
  refine ⟨hscale, ?_⟩
  rintro least greatest rfl
  rcases lt_or_ge least greatest with hlt | hge
  · have hwidth := sub_pos.mpr hlt
    rw [mul_comm]
    exact (le_div_iff₀ hwidth).mp (hle _ ((fit_eq _ _ _).trans (if_pos hlt)))
  · exact (mul_nonpos_of_nonpos_of_nonneg (sub_nonpos.mpr hge) hscale).trans (Nat.cast_nonneg _)

/-- The common scale is no larger than that of either direction. -/
theorem commonScale_le (x y : Option ℚ) :
    (∀ s, x = some s → commonScale x y ≤ s) ∧ ∀ s, y = some s → commonScale x y ≤ s := by
  cases x <;> cases y <;> simp [commonScale, Coefficient.smaller_eq_min, Coefficient.isFinite]

theorem commonScale_nonneg {x y : Option ℚ} (hx : ∀ s, x = some s → 0 ≤ s)
    (hy : ∀ s, y = some s → 0 ≤ s) : 0 ≤ commonScale x y := by
  cases x <;> cases y <;>
    simp_all [commonScale, Coefficient.smaller_eq_min, Coefficient.isFinite]

/-- The common scale fits both directions. -/
theorem fits_commonScale (xs ys : Option (ℚ × ℚ)) (cols rows : Nat) :
    Fits (commonScale (fit xs cols) (fit ys rows)) xs cols ∧
      Fits (commonScale (fit xs cols) (fit ys rows)) ys rows := by
  have hnonneg : 0 ≤ commonScale (fit xs cols) (fit ys rows) :=
    commonScale_nonneg (fun _ => fit_nonneg) fun _ => fit_nonneg
  obtain ⟨hx, hy⟩ := commonScale_le (fit xs cols) (fit ys rows)
  exact ⟨fits_of_le hnonneg hx, fits_of_le hnonneg hy⟩

/-- A wider extent has a smaller scale. -/
theorem fit_map (hc : 0 < c) (a : ℚ) (extent : Option (ℚ × ℚ)) (cells : Nat) :
    fit (extent.map (Prod.map (c * · + a) (c * · + a))) cells = (fit extent cells).map (· / c) := by
  obtain _ | ⟨least, greatest⟩ := extent
  · rfl
  · have hlt : c * least + a < c * greatest + a ↔ least < greatest := by
      rw [add_lt_add_iff_right, mul_lt_mul_iff_right₀ hc]
    have hwidth : c * greatest + a - (c * least + a) = (greatest - least) * c := by ring
    simp only [Option.map_some, Prod.map_apply, fit_eq, hlt, hwidth, div_mul_eq_div_div]
    split <;> rfl

theorem commonScale_map (hc : 0 < c) (x y : Option ℚ) :
    commonScale (x.map (· / c)) (y.map (· / c)) = commonScale x y / c := by
  cases x <;> cases y <;>
    simp [commonScale, Coefficient.smaller_eq_min, Coefficient.isFinite, min_div_div_right hc.le]

theorem cellBeyond_map (hc : 0 < c) (a : ℚ) (extent : Option (ℚ × ℚ)) (scale v : ℚ) :
    cellBeyond (extent.map (Prod.map (c * · + a) (c * · + a))) (scale / c) (c * v + a) =
      cellBeyond extent scale v := by
  obtain _ | ⟨least, greatest⟩ := extent
  · rfl
  · have hcancel : (c * v + a - (c * least + a)) * (scale / c) = (v - least) * scale := by
      field_simp
      ring
    exact congrArg Coefficient.nearestNat hcancel

end Extent

section Points

variable {locations : Locations ℚ} {logical : LogicalGraph} {shape : Chimera} {c : ℚ} {a : ℚ × ℚ}

/-- The places of the variables that have one. -/
def located (locations : Locations ℚ) (logical : LogicalGraph) : List (ℚ × ℚ) :=
  (List.range logical.size).filterMap locations.get?

/-- The point of a variable: its place, or the mean of its neighbours' places, or of all. -/
def point (locations : Locations ℚ) (logical : LogicalGraph) (v : Nat) : ℚ × ℚ :=
  pointOf locations logical (centroid (located locations logical)) v

/-- The extent of the points in `x`. -/
def xExtent (locations : Locations ℚ) (logical : LogicalGraph) : Option (ℚ × ℚ) :=
  bounds ((List.range logical.size).map fun v => (point locations logical v).1)

/-- The extent of the points in `y`. -/
def yExtent (locations : Locations ℚ) (logical : LogicalGraph) : Option (ℚ × ℚ) :=
  bounds ((List.range logical.size).map fun v => (point locations logical v).2)

/-- The scale of the points in the grid. -/
def gridScale (locations : Locations ℚ) (logical : LogicalGraph) (shape : Chimera) : ℚ :=
  commonScale (fit (xExtent locations logical) shape.cols)
    (fit (yExtent locations logical) shape.rows)

/-- The row and column of the point of a variable, not cut off at the edges of the grid. -/
def uncutHint (locations : Locations ℚ) (logical : LogicalGraph) (shape : Chimera) (v : Nat) :
    Nat × Nat :=
  (cellBeyond (yExtent locations logical) (gridScale locations logical shape)
      (point locations logical v).2,
    cellBeyond (xExtent locations logical) (gridScale locations logical shape)
      (point locations logical v).1)

theorem located_ne_nil_iff :
    located locations logical ≠ [] ↔ ∃ v < logical.size, (locations.get? v).isSome = true := by
  simp [located, Option.isSome_iff_ne_none]

theorem hints_eq (h : located locations logical ≠ []) : hints locations logical shape =
    .ok ((List.range logical.size).map fun v =>
      (cellAlong (yExtent locations logical) (gridScale locations logical shape) shape.rows
          (point locations logical v).2,
        cellAlong (xExtent locations logical) (gridScale locations logical shape) shape.cols
          (point locations logical v).1)) := by
  unfold hints
  dsimp only
  split
  · next hnil => exact absurd hnil h
  · next known _ =>
    simp only [List.map_map]
    rfl

/-- The hints are in the grid without being cut off. -/
theorem uncutHint_le (locations : Locations ℚ) (shape : Chimera) {v : Nat}
    (hv : v < logical.size) :
    (uncutHint locations logical shape v).1 ≤ shape.rows - 1 ∧
      (uncutHint locations logical shape v).2 ≤ shape.cols - 1 := by
  obtain ⟨hx, hy⟩ := fits_commonScale (xExtent locations logical) (yExtent locations logical)
    shape.cols shape.rows
  exact ⟨hy.cellBeyond_le (List.mem_map_of_mem (List.mem_range.mpr hv)),
    hx.cellBeyond_le (List.mem_map_of_mem (List.mem_range.mpr hv))⟩

theorem hints_eq_uncutHint (h : located locations logical ≠ []) :
    hints locations logical shape =
      .ok ((List.range logical.size).map (uncutHint locations logical shape)) := by
  rw [hints_eq h]
  refine congrArg Except.ok (List.map_congr_left fun v hv => ?_)
  obtain ⟨hrow, hcol⟩ := uncutHint_le locations shape (List.mem_range.mp hv)
  rw [cellAlong_eq_min, cellAlong_eq_min]
  exact Prod.ext (min_eq_left hrow) (min_eq_left hcol)

/-- A change of the scale and the origin of the plane. -/
def redraw (c : ℚ) (a p : ℚ × ℚ) : ℚ × ℚ := (c * p.1 + a.1, c * p.2 + a.2)

theorem centroid_eq (points : List (ℚ × ℚ)) : centroid points =
    ((points.map (·.1)).sum / points.length, (points.map (·.2)).sum / points.length) := by
  have h : ∀ start : ℚ × ℚ, points.foldl (fun (x, y) p => (x + p.1, y + p.2)) start =
      (start.1 + (points.map (·.1)).sum, start.2 + (points.map (·.2)).sum) := by
    induction points with
    | nil => simp
    | cons p rest ih => simp [ih, add_assoc]
  simp [centroid, h]

/-- The mean is redrawn along with what it is the mean of. -/
theorem centroid_redraw {points : List (ℚ × ℚ)} (hne : points ≠ []) (c : ℚ) (a : ℚ × ℚ) :
    centroid (points.map (redraw c a)) = redraw c a (centroid points) := by
  have hlength : (points.length : ℚ) ≠ 0 := by simpa using hne
  simp only [centroid_eq, redraw, List.map_map, Function.comp_def, List.sum_map_add,
    List.sum_map_mul_left, List.length_map, List.map_const', List.sum_replicate, nsmul_eq_mul]
  field_simp

theorem filterMap_get?_redraw (locations : Locations ℚ) (c : ℚ) (a : ℚ × ℚ) (vars : List Nat) :
    vars.filterMap (locations.mapValues (redraw c a)).get? =
      (vars.filterMap locations.get?).map (redraw c a) := by
  rw [List.map_filterMap]
  exact List.filterMap_congr fun v _ => Table.get?_mapValues locations _ v

theorem located_redraw : located (locations.mapValues (redraw c a)) logical =
    (located locations logical).map (redraw c a) :=
  filterMap_get?_redraw locations c a _

/-- The points of the variables without places are redrawn too. -/
theorem point_redraw (h : located locations logical ≠ []) (v : Nat) :
    point (locations.mapValues (redraw c a)) logical v =
      redraw c a (point locations logical v) := by
  unfold point pointOf
  rw [Table.get?_mapValues, located_redraw, filterMap_get?_redraw, centroid_redraw h]
  cases locations.get? v with
  | some p => rfl
  | none =>
    dsimp only [Option.map_none]
    cases hnear : (logical.neighbors v).filterMap locations.get? with
    | nil => rfl
    | cons p rest => exact centroid_redraw (List.cons_ne_nil p rest) c a

theorem extent_redraw (h : located locations logical ≠ []) (hc : 0 < c) :
    xExtent (locations.mapValues (redraw c a)) logical =
        (xExtent locations logical).map (Prod.map (c * · + a.1) (c * · + a.1)) ∧
      yExtent (locations.mapValues (redraw c a)) logical =
        (yExtent locations logical).map (Prod.map (c * · + a.2) (c * · + a.2)) := by
  simp only [xExtent, yExtent, point_redraw h]
  rw [← bounds_map hc, ← bounds_map hc, List.map_map, List.map_map]
  exact ⟨rfl, rfl⟩

/-- Redrawing the plane at another scale and origin leaves the hints. -/
theorem uncutHint_redraw (h : located locations logical ≠ []) (hc : 0 < c) (v : Nat) :
    uncutHint (locations.mapValues (redraw c a)) logical shape v =
      uncutHint locations logical shape v := by
  obtain ⟨hx, hy⟩ := extent_redraw (a := a) h hc
  have hscale : gridScale (locations.mapValues (redraw c a)) logical shape =
      gridScale locations logical shape / c := by
    unfold gridScale
    rw [hx, hy, fit_map hc, fit_map hc, commonScale_map hc]
  unfold uncutHint
  rw [hx, hy, hscale, point_redraw h]
  exact Prod.ext (cellBeyond_map hc ..) (cellBeyond_map hc ..)

theorem hints_redraw (h : located locations logical ≠ []) (hc : 0 < c) :
    hints (locations.mapValues (redraw c a)) logical shape = hints locations logical shape := by
  have hredrawn : located (locations.mapValues (redraw c a)) logical ≠ [] := by
    rw [located_redraw]
    simpa using h
  rw [hints_eq_uncutHint h, hints_eq_uncutHint hredrawn]
  exact congrArg Except.ok (List.map_congr_left fun v _ => uncutHint_redraw h hc v)

end Points

/-- The hints respect the geometry. There is one for every variable, and it is in the grid without
being cut off. A point with a larger or equal `x` or `y`, of a variable with a place or without one,
never has a smaller column or row. Neither moving all places by a vector nor multiplying them all by
a positive factor changes a hint. -/
theorem hints_geometry {locations : Locations ℚ} {logical : LogicalGraph} {shape : Chimera}
    (hshape : shape.isEmpty = false)
    (hlocated : ∃ v < logical.size, (locations.get? v).isSome = true) :
    hints locations logical shape =
        .ok ((List.range logical.size).map (uncutHint locations logical shape)) ∧
    (∀ v < logical.size, (uncutHint locations logical shape v).1 < shape.rows ∧
      (uncutHint locations logical shape v).2 < shape.cols) ∧
    (∀ u v, ((point locations logical u).1 ≤ (point locations logical v).1 →
        (uncutHint locations logical shape u).2 ≤ (uncutHint locations logical shape v).2) ∧
      ((point locations logical u).2 ≤ (point locations logical v).2 →
        (uncutHint locations logical shape u).1 ≤ (uncutHint locations logical shape v).1)) ∧
    (∀ a b, hints (locations.mapValues fun p => (p.1 + a, p.2 + b)) logical shape =
      hints locations logical shape) ∧
    (∀ c, 0 < c → hints (locations.mapValues fun p => (c * p.1, c * p.2)) logical shape =
      hints locations logical shape) := by
  have hne := located_ne_nil_iff.mpr hlocated
  have hsize : 0 < shape.size := Nat.pos_of_ne_zero (by simpa [Chimera.isEmpty] using hshape)
  have hcell := Chimera.within_coordinates hsize
  have hscale : 0 ≤ gridScale locations logical shape := (fits_commonScale ..).1.nonneg
  refine ⟨hints_eq_uncutHint hne, fun v hv => ?_, fun u v => ⟨cellBeyond_mono hscale,
    cellBeyond_mono hscale⟩, fun a b => ?_, fun c hc => ?_⟩
  · obtain ⟨hrow, hcol⟩ := uncutHint_le locations shape hv
    exact ⟨Nat.lt_of_le_pred (Nat.zero_lt_of_lt hcell.row_lt) hrow,
      Nat.lt_of_le_pred (Nat.zero_lt_of_lt hcell.col_lt) hcol⟩
  · have hmove : (fun p : ℚ × ℚ => (p.1 + a, p.2 + b)) = redraw 1 (a, b) := by
      funext p
      simp [redraw]
    rw [hmove]
    exact hints_redraw hne one_pos
  · have hstretch : (fun p : ℚ × ℚ => (c * p.1, c * p.2)) = redraw c 0 := by
      funext p
      simp [redraw]
    rw [hstretch]
    exact hints_redraw hne hc

/-- Two variables with places and one between them without: the hints of the three, in the plane as
given, with the origin elsewhere, and with another scale. -/
theorem hints_geometry_between :
    let locations : Locations ℚ := .ofList [(0, (0, 0)), (1, (2, 0))]
    let logical := ((LogicalGraph.empty 3).addEdge 0 2).addEdge 1 2
    hints locations logical ⟨3, 3, 4⟩ = .ok [(0, 0), (0, 2), (0, 1)] ∧
    hints (locations.mapValues fun p => (p.1 + 1 / 2, p.2 + -3)) logical ⟨3, 3, 4⟩ =
      .ok [(0, 0), (0, 2), (0, 1)] ∧
    hints (locations.mapValues fun p => (7 / 3 * p.1, 7 / 3 * p.2)) logical ⟨3, 3, 4⟩ =
      .ok [(0, 0), (0, 2), (0, 1)] := by
  intro locations logical
  obtain ⟨hhints, _, _, hmove, hstretch⟩ := @hints_geometry locations logical ⟨3, 3, 4⟩
    (by decide +kernel) ⟨0, by decide +kernel, by decide +kernel⟩
  have huncut : (List.range logical.size).map (uncutHint locations logical ⟨3, 3, 4⟩) =
      [(0, 0), (0, 2), (0, 1)] := by decide +kernel
  rw [huncut] at hhints
  exact ⟨hhints, (hmove _ _).trans hhints, (hstretch _ (by norm_num)).trans hhints⟩

end Layout

end SpinGlass
