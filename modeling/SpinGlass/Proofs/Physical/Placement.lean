import SpinGlass.Physical.Basic
import SpinGlass.Proofs.Embedding.Valid
import SpinGlass.Proofs.Problem.Domains

/-!
# Energies on a machine

A vector that gives all qubits of a chain the spin of its variable shows an assignment. On such a
vector every coefficient that is placed counts what it counted before, and a coupler that ties equal
spins together counts its strength. So the machine reports the energy of the assignment, less the
constant term and plus a constant, times the scaling factor.
-/

namespace SpinGlass

/-- Every qubit of a chain has the spin of its variable. -/
def Embedding.Shows (e : Embedding) (vector spins : Assignment) : Prop :=
  ∀ i, ∀ q ∈ e.chain i, vector q = spins i

theorem mem_of_head?_sortDistinct {α : Type} [Ord α] [Std.LawfulEqOrd α] {xs : List α} {x : α}
    (h : (sortDistinct xs).head? = some x) : x ∈ xs :=
  mem_sortDistinct.mp (List.mem_of_head? h)

namespace PhysicalProblem

/-- A coupler between two chains joins a qubit of one to a qubit of the other. -/
theorem mem_couplersBetween_iff {target : Target} {a b : List Nat} {e : Pair} :
    e ∈ couplersBetween target a b ↔
      (∃ qa ∈ a, ∃ qb ∈ b, .of qa qb = e) ∧ target.hasEdge e.lo e.hi = true := by
  simp [couplersBetween]

/-- A coupler inside a chain joins two of its qubits. -/
theorem mem_couplersInside {target : Target} {chain : List Nat} {e : Pair}
    (h : e ∈ couplersInside target chain) : ∃ qa ∈ chain, ∃ qb ∈ chain, e = .of qa qb := by
  induction chain with
  | nil => simp [couplersInside] at h
  | cons a rest ih =>
    rcases List.mem_append.mp h with he | he
    · obtain ⟨b, hb, rfl⟩ := List.mem_map.mp he
      exact ⟨a, List.mem_cons_self, b, List.mem_cons_of_mem _ (List.mem_filter.mp hb).1, rfl⟩
    · obtain ⟨qa, hqa, qb, hqb, heq⟩ := ih he
      exact ⟨qa, List.mem_cons_of_mem _ hqa, qb, List.mem_cons_of_mem _ hqb, heq⟩

/-- A chain is found unless it is empty. -/
theorem chainOf_eq_ok {embedding : Embedding} {v : Nat} {chain : List Nat} :
    chainOf embedding v = .ok chain ↔ embedding.chain v ≠ [] ∧ embedding.chain v = chain := by
  unfold chainOf
  split
  · next hnil => simp [hnil]
  · next hne =>
    rw [Except.ok.injEq]
    exact ⟨fun heq => ⟨hne, heq⟩, And.right⟩

/-- A coupler that is found joins the chains of the two variables. -/
theorem couplerOf_eq_ok {embedding : Embedding} {target : Target} {q e : Pair}
    {fault : EmbeddingFault} (h : couplerOf embedding target q fault = .ok e) :
    (∃ qa ∈ embedding.chain q.lo, ∃ qb ∈ embedding.chain q.hi, .of qa qb = e) ∧
      target.hasEdge e.lo e.hi = true := by
  unfold couplerOf at h
  obtain ⟨a, ha, h⟩ := bind_eq_ok.mp h
  obtain ⟨b, hb, h⟩ := bind_eq_ok.mp h
  split at h
  · next found hfound =>
    cases h
    rw [(chainOf_eq_ok.mp ha).2, (chainOf_eq_ok.mp hb).2]
    exact mem_couplersBetween_iff.mp (mem_of_head?_sortDistinct hfound)
  · cases h

section Steps

variable {K : Type} [Coefficient K] {embedding : Embedding} {target : Target}
  {p p' : PhysicalProblem K}

/-- A linear term is placed on the lowest qubit of its chain. -/
theorem placeWeight_eq_ok {term : Nat × K} :
    placeWeight embedding p term = .ok p' ↔
      ∃ q, (embedding.chain term.1).head? = some q ∧ p.addWeight q term.2 = p' := by
  unfold placeWeight
  rw [bind_eq_ok]
  simp only [chainOf_eq_ok, Pure.pure, Except.pure, Except.ok.injEq]
  cases hchain : embedding.chain term.1 <;> simp [eq_comm]

/-- A quadratic term is placed on a coupler between its chains. -/
theorem placeStrength_eq_ok {term : Pair × K} :
    placeStrength embedding target p term = .ok p' ↔
      ∃ e, couplerOf embedding target term.1 (.noCouplerForTerm term.1.lo term.1.hi) = .ok e ∧
        p.addStrength e term.2 = p' := by
  unfold placeStrength
  rw [bind_eq_ok]
  simp [Pure.pure, Except.pure]

/-- Two chained variables are tied by a coupler between their chains. -/
theorem placeChain_eq_ok {strength : K} {q : Pair} :
    placeChain embedding target strength p q = .ok p' ↔
      ∃ e, couplerOf embedding target q (.noCouplerForChain q.lo q.hi) = .ok e ∧
        p.addChain strength e = p' := by
  unfold placeChain
  rw [bind_eq_ok]
  simp [Pure.pure, Except.pure]

/-- A problem is placed by its weights, its strengths and its chains, each over the qubits that the
ones before have been placed on. -/
theorem reconcile_eq_ok {logical : Problem K} {chainStrength : K} :
    reconcile logical embedding target chainStrength = .ok p ↔
    ∃ p₁ p₂ p₃ : PhysicalProblem K,
      logical.toIsing.weights.nonzero.entries.foldlM (placeWeight embedding)
        (empty embedding logical.toIsing.offset) = .ok p₁ ∧
      logical.toIsing.strengths.nonzero.entries.foldlM (placeStrength embedding target) p₁ =
        .ok p₂ ∧
      (KeySet.toList logical.toIsing.chains).foldlM (placeChain embedding target chainStrength)
        ((embedding.chains.flatMap (couplersInside target)).foldl (addChain chainStrength) p₂) =
        .ok p₃ ∧
      { p₃ with strengths := p₃.strengths.nonzero } = p := by
  unfold reconcile
  simp only [bind_eq_ok, Pure.pure, Except.pure, Except.ok.injEq]
  constructor
  · rintro ⟨p₁, hweights, p₂, hstrengths, p₃, hties, hprune⟩
    exact ⟨p₁, p₂, p₃, hweights, hstrengths, hties, hprune⟩
  · rintro ⟨p₁, p₂, p₃, hweights, hstrengths, hties, hprune⟩
    exact ⟨p₁, hweights, p₂, hstrengths, p₃, hties, hprune⟩

end Steps

section Frame

variable {K : Type} {p p' : PhysicalProblem K}

/-- Placing a term keeps the embedding, the constant term and the scaling factor. -/
structure SamePlace (p p' : PhysicalProblem K) : Prop where
  embedding : p'.embedding = p.embedding
  offset : p'.offset = p.offset
  scaleFactor : p'.scaleFactor = p.scaleFactor

theorem SamePlace.refl (p : PhysicalProblem K) : p.SamePlace p := ⟨rfl, rfl, rfl⟩

theorem SamePlace.trans {p'' : PhysicalProblem K} (h : p.SamePlace p') (h' : p'.SamePlace p'') :
    p.SamePlace p'' :=
  ⟨h'.embedding.trans h.embedding, h'.offset.trans h.offset, h'.scaleFactor.trans h.scaleFactor⟩

/-- Steps that each keep the place keep it together. -/
theorem samePlace_foldlM {α ε : Type} {step : PhysicalProblem K → α → Except ε (PhysicalProblem K)}
    {entries : List α} (hstep : ∀ e q q', step q e = .ok q' → q.SamePlace q')
    (h : entries.foldlM step p = .ok p') : p.SamePlace p' := by
  induction entries generalizing p with
  | nil =>
    cases h
    exact .refl _
  | cons e rest ih =>
    obtain ⟨next, hfirst, h⟩ := foldlM_cons_eq_ok.mp h
    exact (hstep e p next hfirst).trans (ih h)

variable [Coefficient K] {embedding : Embedding} {target : Target}

theorem samePlace_placeWeight {term : Nat × K} (h : placeWeight embedding p term = .ok p') :
    p.SamePlace p' := by
  obtain ⟨q, _, rfl⟩ := placeWeight_eq_ok.mp h
  exact ⟨rfl, rfl, rfl⟩

theorem samePlace_placeStrength {term : Pair × K}
    (h : placeStrength embedding target p term = .ok p') : p.SamePlace p' := by
  obtain ⟨e, _, rfl⟩ := placeStrength_eq_ok.mp h
  exact ⟨rfl, rfl, rfl⟩

theorem samePlace_placeChain {strength : K} {q : Pair}
    (h : placeChain embedding target strength p q = .ok p') : p.SamePlace p' := by
  obtain ⟨e, _, rfl⟩ := placeChain_eq_ok.mp h
  exact ⟨rfl, rfl, rfl⟩

theorem samePlace_reconcile {logical : Problem K} {chainStrength : K}
    (h : reconcile logical embedding target chainStrength = .ok p) :
    (empty embedding logical.toIsing.offset).SamePlace p := by
  obtain ⟨p₁, p₂, p₃, hweights, hstrengths, hties, rfl⟩ := reconcile_eq_ok.mp h
  have hinside : p₂.SamePlace ((embedding.chains.flatMap (couplersInside target)).foldl
      (addChain chainStrength) p₂) :=
    List.foldlRecOn _ _ (motive := fun q => p₂.SamePlace q) (.refl _)
      fun q hq e _ => hq.trans ⟨rfl, rfl, rfl⟩
  have hsame := ((samePlace_foldlM (fun _ _ _ => samePlace_placeWeight) hweights).trans
    (samePlace_foldlM (fun _ _ _ => samePlace_placeStrength) hstrengths)).trans
      (hinside.trans (samePlace_foldlM (fun _ _ _ => samePlace_placeChain) hties))
  exact hsame.trans ⟨rfl, rfl, rfl⟩

/-- A placed problem has the embedding it was placed on, and is not scaled. -/
theorem place_of_reconcile {logical : Problem K} {chainStrength : K}
    (h : reconcile logical embedding target chainStrength = .ok p) :
    p.embedding = embedding ∧ p.scaleFactor = Coefficient.one :=
  ⟨(samePlace_reconcile h).embedding, (samePlace_reconcile h).scaleFactor⟩

/-- Scaling keeps the embedding. -/
theorem embedding_scale (p : PhysicalProblem K) (limits : Limits K) :
    (p.scale limits).2.embedding = p.embedding := by
  unfold scale
  dsimp only
  split <;> rfl

end Frame

section Energy

variable {p p' : PhysicalProblem ℚ} {v : Assignment}

/-- The energy of a sample as two totals. -/
theorem sampleEnergy_eq (p : PhysicalProblem ℚ) (v : Assignment) :
    p.sampleEnergy v = p.weights.total (fun q w => w * Problem.value .ising v q) +
      p.strengths.total fun e j =>
        j * Problem.value .ising v e.lo * Problem.value .ising v e.hi := by
  simp [sampleEnergy, Table.total, Coefficient.sum_eq]

/-- An amount of energy is added to a physical problem. -/
def Adds (v : Assignment) (amount : ℚ) (p p' : PhysicalProblem ℚ) : Prop :=
  p'.sampleEnergy v = p.sampleEnergy v + amount

theorem Adds.refl (v : Assignment) (p : PhysicalProblem ℚ) : Adds v 0 p p := (add_zero _).symm

theorem Adds.trans {p'' : PhysicalProblem ℚ} {a b : ℚ} (h : Adds v a p p') (h' : Adds v b p' p'') :
    Adds v (a + b) p p'' := by
  unfold Adds at h h' ⊢
  rw [h', h, add_assoc]

/-- A weight adds its value. -/
theorem adds_addWeight (p : PhysicalProblem ℚ) (v : Assignment) (q : Nat) (w : ℚ) :
    Adds v (w * Problem.value .ising v q) p (p.addWeight q w) := by
  unfold Adds
  rw [sampleEnergy_eq, sampleEnergy_eq]
  unfold addWeight
  simp only [Table.total_alter]
  cases p.weights.get? q <;> simp <;> ring

/-- A strength adds its value. -/
theorem adds_addStrength (p : PhysicalProblem ℚ) (v : Assignment) (e : Pair) (j : ℚ) :
    Adds v (j * (Problem.value .ising v e.lo * Problem.value .ising v e.hi)) p
      (p.addStrength e j) := by
  unfold Adds
  rw [sampleEnergy_eq, sampleEnergy_eq]
  unfold addStrength
  simp only [Table.total_alter]
  cases p.strengths.get? e <;> simp <;> ring

/-- A coupler between equal spins adds the strength that ties them. -/
theorem adds_addChain (p : PhysicalProblem ℚ) {a b : Nat} {spin : Spin} (strength : ℚ)
    (ha : v a = some spin) (hb : v b = some spin) :
    Adds v strength p (addChain strength p (.of a b)) := by
  have hadds := adds_addStrength p v (.of a b) strength
  have hsquare : (Problem.value .ising v a : ℚ) * Problem.value .ising v b = 1 := by
    rw [Problem.value_of_eq_some _ ha, Problem.value_of_eq_some _ hb]
    exact Mode.isValue_ofSpinIn .ising spin
  rwa [Pair.mul_of, hsquare, mul_one] at hadds

/-- Steps that each add an amount add up to the sum. -/
theorem adds_foldl {α : Type} (step : PhysicalProblem ℚ → α → PhysicalProblem ℚ) (amount : α → ℚ)
    (entries : List α) (hstep : ∀ e ∈ entries, ∀ q, Adds v (amount e) q (step q e))
    (p : PhysicalProblem ℚ) : Adds v (entries.map amount).sum p (entries.foldl step p) := by
  induction entries generalizing p with
  | nil => exact .refl v _
  | cons e rest ih =>
    rw [List.map_cons, List.sum_cons, List.foldl_cons]
    exact (hstep e List.mem_cons_self p).trans
      (ih (fun e he => hstep e (List.mem_cons_of_mem _ he)) _)

/-- Steps that each add an amount if they succeed add up to the sum. -/
theorem adds_foldlM {α ε : Type} {step : PhysicalProblem ℚ → α → Except ε (PhysicalProblem ℚ)}
    (amount : α → ℚ) {entries : List α}
    (hstep : ∀ e ∈ entries, ∀ q q', step q e = .ok q' → Adds v (amount e) q q')
    (h : entries.foldlM step p = .ok p') : Adds v (entries.map amount).sum p p' := by
  induction entries generalizing p with
  | nil =>
    cases h
    exact .refl v _
  | cons e rest ih =>
    obtain ⟨next, hfirst, h⟩ := foldlM_cons_eq_ok.mp h
    rw [List.map_cons, List.sum_cons]
    exact (hstep e List.mem_cons_self p next hfirst).trans
      (ih (fun e he => hstep e (List.mem_cons_of_mem _ he)) h)

section Place

variable {embedding : Embedding} {target : Target} {spins : Assignment}
  (hshows : embedding.Shows v spins)

include hshows

/-- A linear term counts on the chain what it counted on the variable. -/
theorem adds_placeWeight {term : Nat × ℚ} (h : placeWeight embedding p term = .ok p') :
    Adds v (term.2 * Problem.value .ising spins term.1) p p' := by
  obtain ⟨q, hq, rfl⟩ := placeWeight_eq_ok.mp h
  have hadds := adds_addWeight p v q term.2
  rwa [Problem.value_congr .ising (hshows _ _ (List.mem_of_head? hq))] at hadds

/-- A coupler between two chains multiplies the spins of the variables. -/
theorem value_mul_of_couplerOf {q e : Pair} {fault : EmbeddingFault}
    (h : couplerOf embedding target q fault = .ok e) :
    (Problem.value .ising v e.lo * Problem.value .ising v e.hi : ℚ) =
      Problem.value .ising spins q.lo * Problem.value .ising spins q.hi := by
  obtain ⟨⟨qa, hqa, qb, hqb, rfl⟩, _⟩ := couplerOf_eq_ok h
  rw [Pair.mul_of, Problem.value_congr .ising (hshows _ _ hqa),
    Problem.value_congr .ising (hshows _ _ hqb)]

/-- A quadratic term counts on the coupler what it counted on the variables. -/
theorem adds_placeStrength {term : Pair × ℚ} (h : placeStrength embedding target p term = .ok p') :
    Adds v (term.2 * (Problem.value .ising spins term.1.lo * Problem.value .ising spins term.1.hi))
      p p' := by
  obtain ⟨e, hcoupler, rfl⟩ := placeStrength_eq_ok.mp h
  rw [← value_mul_of_couplerOf hshows hcoupler]
  exact adds_addStrength p v e term.2

/-- A chain between two variables counts its strength times their spins. -/
theorem adds_placeChain {strength : ℚ} {q : Pair}
    (h : placeChain embedding target strength p q = .ok p') :
    Adds v (strength * (Problem.value .ising spins q.lo * Problem.value .ising spins q.hi))
      p p' := by
  obtain ⟨e, hcoupler, rfl⟩ := placeChain_eq_ok.mp h
  rw [← value_mul_of_couplerOf hshows hcoupler]
  exact adds_addStrength p v e strength

/-- The linear terms count as a total. -/
theorem adds_placeWeights {weights : Table Nat ℚ}
    (h : weights.nonzero.entries.foldlM (placeWeight embedding) p = .ok p') :
    Adds v (weights.total fun i w => w * Problem.value .ising spins i) p p' := by
  have hadds := adds_foldlM (v := v) _ (fun _ _ _ _ hok => adds_placeWeight hshows hok) h
  have htotal := Table.total_nonzero (f := fun i w => w * Problem.value .ising spins i) weights
    fun _ => zero_mul _
  rwa [← htotal]

/-- The quadratic terms count as a total. -/
theorem adds_placeStrengths {strengths : Table Pair ℚ}
    (h : strengths.nonzero.entries.foldlM (placeStrength embedding target) p = .ok p') :
    Adds v (strengths.total fun q j =>
      j * (Problem.value .ising spins q.lo * Problem.value .ising spins q.hi)) p p' := by
  have hadds := adds_foldlM (v := v) _ (fun _ _ _ _ hok => adds_placeStrength hshows hok) h
  have htotal := Table.total_nonzero
    (f := fun q j => j * (Problem.value .ising spins q.lo * Problem.value .ising spins q.hi))
    strengths fun _ => zero_mul _
  rwa [← htotal]

/-- The chains of a problem count as a total. -/
theorem adds_placeChains {strength : ℚ} {chains : KeySet Pair}
    (h : (KeySet.toList chains).foldlM (placeChain embedding target strength) p = .ok p') :
    Adds v (strength * chains.total fun q _ =>
      Problem.value .ising spins q.lo * Problem.value .ising spins q.hi) p p' := by
  have hadds := adds_foldlM (v := v) _ (fun _ _ _ _ hok => adds_placeChain hshows hok) h
  have htotal := Table.total_mul_left chains strength fun q _ =>
    Problem.value .ising spins q.lo * Problem.value .ising spins q.hi
  unfold KeySet.toList Table.keys at hadds
  rw [List.map_map] at hadds
  rwa [← htotal]

/-- The couplers inside the chains count their strengths. -/
theorem adds_couplersInside (hspins : ∀ i < embedding.chains.length, ∃ spin, spins i = some spin)
    (target : Target) (strength : ℚ) (p : PhysicalProblem ℚ) :
    Adds v (strength * (embedding.chains.flatMap (couplersInside target)).length) p
      ((embedding.chains.flatMap (couplersInside target)).foldl (addChain strength) p) := by
  have hadds := adds_foldl (v := v) (addChain strength) (fun _ => strength)
    (embedding.chains.flatMap (couplersInside target)) (fun e he q => ?_) p
  · rwa [List.map_const', List.sum_replicate, nsmul_eq_mul, mul_comm] at hadds
  · obtain ⟨chain, hchain, he⟩ := List.mem_flatMap.mp he
    obtain ⟨i, hi, rfl⟩ := List.getElem_of_mem hchain
    obtain ⟨qa, hqa, qb, hqb, rfl⟩ := mem_couplersInside he
    obtain ⟨spin, hspin⟩ := hspins i hi
    rw [← Embedding.chain_eq_getElem hi] at hqa hqb
    exact adds_addChain q strength ((hshows i qa hqa).trans hspin) ((hshows i qb hqb).trans hspin)

end Place

/-- The constant that the couplers of chains contribute. -/
def chainEnergy (logical : Problem ℚ) (embedding : Embedding) (target : Target)
    (chainStrength : ℚ) : ℚ :=
  chainStrength * (embedding.chains.flatMap (couplersInside target)).length +
    chainStrength * (KeySet.toList logical.chains).length

/-- A placed problem has the energy of the problem over spins, and that of the couplers that tie
qubits together. -/
theorem sampleEnergy_reconcile_add_offset {logical : Problem ℚ} {live : Nat → Prop}
    {embedding : Embedding} {target : Target} {chainStrength : ℚ} {spins : Assignment}
    (hlogical : logical.Over live)
    (h : reconcile logical embedding target chainStrength = .ok p)
    (hshows : embedding.Shows v spins)
    (hspins : ∀ i < embedding.chains.length, ∃ spin, spins i = some spin) :
    p.sampleEnergy v + p.offset = logical.toIsing.energy spins +
      chainStrength * ((embedding.chains.flatMap (couplersInside target)).length +
        logical.chains.total fun q _ =>
          Problem.value .ising spins q.lo * Problem.value .ising spins q.hi) := by
  have hsame := (Problem.toIsing_spec hlogical).2
  have hmode : logical.toIsing.mode = .ising := hsame.mode
  have hchains : logical.toIsing.chains = logical.chains := hsame.chains
  have hoffset : p.offset = logical.toIsing.offset := (samePlace_reconcile h).offset
  obtain ⟨p₁, p₂, p₃, hweights, hstrengths, hties, rfl⟩ := reconcile_eq_ok.mp h
  have hadds := (((adds_placeWeights hshows hweights).trans
    (adds_placeStrengths hshows hstrengths)).trans
      (adds_couplersInside hshows hspins target chainStrength p₂)).trans
        (adds_placeChains hshows hties)
  have hprune : ∀ offset,
      { p₃ with strengths := p₃.strengths.nonzero, offset }.sampleEnergy v = p₃.sampleEnergy v := by
    intro offset
    rw [sampleEnergy_eq, sampleEnergy_eq]
    simp [Table.total_nonzero]
  have hempty :
      (empty embedding logical.toIsing.offset : PhysicalProblem ℚ).sampleEnergy v = 0 := by
    rw [sampleEnergy_eq]
    simp [empty]
  rw [hoffset, hprune, hadds, hempty, hchains, Problem.energy_eq_objective, hmode]
  unfold Problem.objective
  simp only [mul_assoc]
  ring

/-- A placed problem has the energy of the assignment that is shown, up to constants. -/
theorem sampleEnergy_reconcile {logical : Problem ℚ} {live : Nat → Prop} {embedding : Embedding}
    {target : Target} {chainStrength : ℚ} {spins : Assignment} (hlogical : logical.Over live)
    (hmode : logical.mode = .ising)
    (h : reconcile logical embedding target chainStrength = .ok p)
    (hshows : embedding.Shows v spins)
    (hspins : ∀ i < embedding.chains.length, ∃ spin, spins i = some spin)
    (hchains : ∀ q, logical.chains.contains q = true →
      ∃ spin, spins q.lo = some spin ∧ spins q.hi = some spin) :
    p.sampleEnergy v = logical.energy spins - logical.offset +
      chainEnergy logical embedding target chainStrength := by
  have hising : logical.toIsing = logical := Problem.toIsing_eq_self hmode
  have hoffset : p.offset = logical.offset := by
    rw [(samePlace_reconcile h).offset, hising]
    rfl
  have htied : (logical.chains.total fun q _ =>
      Problem.value .ising spins q.lo * Problem.value .ising spins q.hi) =
        (KeySet.toList logical.chains).length := by
    have hone : (logical.chains.total fun q _ =>
        Problem.value .ising spins q.lo * Problem.value .ising spins q.hi) =
          logical.chains.total fun _ _ => 1 := by
      refine Table.total_congr fun q _ hq => ?_
      obtain ⟨spin, hlo, hhi⟩ := hchains q (Table.contains_iff.mpr ⟨_, hq⟩)
      rw [Problem.value_of_eq_some _ hlo, Problem.value_of_eq_some _ hhi]
      exact Mode.isValue_ofSpinIn .ising spin
    rw [hone]
    simp [Table.total, KeySet.toList, Table.keys]
  have henergy := sampleEnergy_reconcile_add_offset hlogical h hshows hspins
  rw [hoffset, hising, htied] at henergy
  unfold chainEnergy
  linarith

end Energy

end PhysicalProblem

end SpinGlass
