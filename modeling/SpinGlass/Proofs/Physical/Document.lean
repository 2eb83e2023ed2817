import SpinGlass.Bqpjson
import SpinGlass.Proofs.Physical.Scaling
import Mathlib.Tactic.FieldSimp

/-!
# Documents of physical problems

Scaling multiplies the coefficients of a physical problem and leaves its constant term alone. The
document of a problem multiplies the constant term by all factors so far and divides the total by
them, so that its value is the energy before any scaling, whatever the limits were.
-/

namespace SpinGlass

namespace Bqpjson

/-- The domain that a document names for its variables. -/
def domain {K : Type} (d : Bqpjson K) : Mode :=
  if d.variableDomain = domainOf .qubo then .qubo else .ising

/-- The value of a document at an assignment. -/
def energy (d : Bqpjson ℚ) (s : Assignment) : ℚ :=
  let value := Problem.value d.domain s
  d.scale * (d.offset + (d.linearTerms.map fun t => t.coeff * value t.id).sum +
    (d.quadraticTerms.map fun t => t.coeff * value t.tail * value t.head).sum)

/-- Every variable of a term is listed, and the list is strictly increasing. -/
structure Lists {K : Type} (d : Bqpjson K) : Prop where
  increasing : d.variableIds.Pairwise (· < ·)
  linear : ∀ t ∈ d.linearTerms, t.id ∈ d.variableIds
  quadratic : ∀ t ∈ d.quadraticTerms, t.tail ∈ d.variableIds ∧ t.head ∈ d.variableIds

section Lists

variable {K : Type} [Coefficient K]

/-- The document of a physical problem lists its qubits. -/
theorem lists_ofPhysical (p : PhysicalProblem K) : (ofPhysical p).Lists := by
  have hmem : ∀ q, q ∈ (ofPhysical p).variableIds ↔ q ∈ p.embedding.chains.flatten ∨
      q ∈ p.weights.keys ∨ ∃ e ∈ p.strengths.keys, q = e.lo ∨ q = e.hi := by
    intro q
    unfold ofPhysical PhysicalProblem.qubits
    simp [mem_sortDistinct]
  refine ⟨?_, fun t ht => ?_, fun t ht => ?_⟩
  · exact (pairwise_sortDistinct _).imp fun hlt => Nat.compare_eq_lt.mp hlt
  · obtain ⟨e, he, rfl⟩ := List.mem_map.mp ht
    exact (hmem _).mpr (.inr (.inl (List.mem_map_of_mem he)))
  · obtain ⟨e, he, rfl⟩ := List.mem_map.mp ht
    have hkey : e.1 ∈ p.strengths.keys := List.mem_map_of_mem he
    exact ⟨(hmem _).mpr (.inr (.inr ⟨_, hkey, .inl rfl⟩)),
      (hmem _).mpr (.inr (.inr ⟨_, hkey, .inr rfl⟩))⟩

end Lists

/-- The document of a physical problem gives the energy of the problem without its factor. -/
theorem energy_ofPhysical {p : PhysicalProblem ℚ} (hfactor : p.scaleFactor ≠ 0) (s : Assignment) :
    (ofPhysical p).energy s = p.sampleEnergy s / p.scaleFactor + p.offset := by
  have hdomain : (ofPhysical p).domain = .ising := rfl
  have hlinear : ((ofPhysical p).linearTerms.map fun t =>
      t.coeff * Problem.value .ising s t.id).sum =
        p.weights.total fun q w => w * Problem.value .ising s q := by
    simp [ofPhysical, linearTermsOf, Table.total, Function.comp_def]
  have hquadratic : ((ofPhysical p).quadraticTerms.map fun t =>
      t.coeff * Problem.value .ising s t.tail * Problem.value .ising s t.head).sum =
        p.strengths.total fun e j =>
          j * Problem.value .ising s e.lo * Problem.value .ising s e.hi := by
    simp [ofPhysical, quadraticTermsOf, Table.total, Function.comp_def]
  unfold energy
  simp only [hdomain]
  rw [hlinear, hquadratic, PhysicalProblem.sampleEnergy_eq]
  simp only [ofPhysical, Coefficient.one_eq]
  field_simp
  ring

end Bqpjson

namespace PhysicalProblem

section Run

variable {K : Type} [Coefficient K]

/-- The problem after a run of scalings. -/
def scaleAll (p : PhysicalProblem K) (limits : List (Limits K)) : PhysicalProblem K :=
  limits.foldl (fun p l => (p.scale l).2) p

/-- Scaling leaves the constant term alone. -/
theorem offset_scale (p : PhysicalProblem K) (limits : Limits K) :
    (p.scale limits).2.offset = p.offset := by
  unfold scale
  dsimp only
  split <;> rfl

end Run

/-- A run of scalings multiplies all energies by the factor that it gathers. -/
theorem scaleAll_spec {limits : List (Limits ℚ)}
    (hlimits : ∀ l ∈ limits, 0 < l.weight ∧ 0 < l.strength) (p : PhysicalProblem ℚ) :
    ∃ factor : ℚ, 0 < factor ∧ (p.scaleAll limits).scaleFactor = p.scaleFactor * factor ∧
      (∀ s, (p.scaleAll limits).sampleEnergy s = factor * p.sampleEnergy s) ∧
      (p.scaleAll limits).offset = p.offset := by
  induction limits generalizing p with
  | nil => exact ⟨1, one_pos, (mul_one _).symm, fun s => (one_mul _).symm, rfl⟩
  | cons l rest ih =>
    obtain ⟨⟨hweight, hstrength⟩, hrest⟩ := List.forall_mem_cons.mp hlimits
    obtain ⟨first, hfirst, hscale, henergy⟩ := scale_spec hweight hstrength p
    obtain ⟨later, hlater, hscale', henergy', hoffset⟩ := ih hrest (p.scale l).2
    refine ⟨first * later, mul_pos hfirst hlater, ?_, fun s => ?_, ?_⟩
    · exact hscale'.trans (by rw [hscale, mul_assoc])
    · exact (henergy' s).trans (by rw [henergy]; ring)
    · exact hoffset.trans (offset_scale p l)

/-- After any run of scalings the document of a problem has the energy of the problem before it,
constant term included, and it lists the qubits of its terms in increasing order. -/
theorem energy_document_scaleAll {p : PhysicalProblem ℚ} {limits : List (Limits ℚ)}
    (hscale : p.scaleFactor = 1) (hlimits : ∀ l ∈ limits, 0 < l.weight ∧ 0 < l.strength) :
    (∀ s, (Bqpjson.ofPhysical (p.scaleAll limits)).energy s = p.sampleEnergy s + p.offset) ∧
      (Bqpjson.ofPhysical (p.scaleAll limits)).Lists := by
  refine ⟨fun s => ?_, Bqpjson.lists_ofPhysical _⟩
  obtain ⟨factor, hpos, hfactor, henergy, hoffset⟩ := scaleAll_spec hlimits p
  rw [hscale, one_mul] at hfactor
  have hne : (p.scaleAll limits).scaleFactor ≠ 0 := hfactor ▸ hpos.ne'
  rw [Bqpjson.energy_ofPhysical hne, henergy, hoffset, hfactor, mul_div_cancel_left₀ _ hpos.ne']

/-- Two coupled qubits, of which one has a large weight. -/
def heavyPair : PhysicalProblem ℚ :=
  ((empty (.ofChains [[3], [7]]) 7).addWeight 3 4).addStrength (.of 3 7) (-1)

/-- `heavyPair` is scaled by one half and then by one eighth, and its document has the energy of the
start. -/
theorem energy_document_scaleAll_heavyPair : ∃ limits : List (Limits ℚ),
    heavyPair.scaleFactor = 1 ∧ (∀ l ∈ limits, 0 < l.weight ∧ 0 < l.strength) ∧
      (heavyPair.scaleAll limits).scaleFactor = 1 / 16 ∧
      (Bqpjson.ofPhysical (heavyPair.scaleAll limits)).energy (fun _ => some .up) = 10 ∧
      (Bqpjson.ofPhysical (heavyPair.scaleAll limits)).variableIds = [3, 7] := by
  have hlimits : ∀ l ∈ [Limits.default, .uniform (1 / 4 : ℚ)], 0 < l.weight ∧ 0 < l.strength := by
    decide +kernel
  have hscale : heavyPair.scaleFactor = 1 := by decide +kernel
  obtain ⟨henergy, _⟩ := energy_document_scaleAll hscale hlimits
  refine ⟨_, hscale, hlimits, by decide +kernel, ?_, by decide +kernel⟩
  rw [henergy]
  decide +kernel

end PhysicalProblem

end SpinGlass
