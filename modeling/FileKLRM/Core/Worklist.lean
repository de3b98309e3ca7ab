import Mathlib.Tactic

/-!
# Searching a graph with a work list

A search meets a node, may put it on a list, takes nodes off the list and meets their neighbours.
Whether a meeting puts the node on the list depends on how often it was met before (`push x k`:
the meeting with `x` that follows `k` earlier ones); a mark that is set at the first meeting is
`k = 0`, but a search may also mark late.

`Worklist` is the invariant, in the middle of going through the neighbours of a node too, which is
then still counted as open.  It says what the meetings are (`trace`): the start and the neighbours
of every node taken off the list, as often as it was taken off.  When the list is empty everything
the search did can be counted from that.
-/

namespace KLRM

variable {α : Type*}

/-! ## Reachability

The reflexive and transitive closure of `next`, by Mathlib's `Relation.ReflTransGen`. -/

/-- `y` can be reached from `x`. -/
def Reach (next : α → List α) (x y : α) : Prop := Relation.ReflTransGen (fun a b => b ∈ next a) x y

lemma Reach.refl (next : α → List α) (x : α) : Reach next x x := Relation.ReflTransGen.refl

lemma Reach.tail {next : α → List α} {x y z : α} (h : Reach next x y) (hz : z ∈ next y) :
    Reach next x z := Relation.ReflTransGen.tail h hz

/-- What is reached with fewer edges is reached with more. -/
lemma Reach.mono {next next' : α → List α} (hle : ∀ x, ∀ y ∈ next x, y ∈ next' x) {x y : α}
    (h : Reach next x y) : Reach next' x y := by
  induction h with
  | refl => exact Reach.refl next' x
  | tail _ hz ih => exact ih.tail (hle _ _ hz)

/-! ## Coverage alone

When a search returns, what it has met can be told from less than `Worklist`: that a first meeting
puts a node on the list.  How often the later ones do, and whether the search ends, does not
matter.  -/

section Covers

variable {α : Type*}

/-- What has been met is on the list, or so are its neighbours met. -/
structure Covers (next : α → List α) (start : α) (trace opened : List α) : Prop where
  start_mem : start ∈ trace
  reach : ∀ x ∈ trace, Reach next start x
  opened_mem : ∀ x ∈ opened, x ∈ trace
  closed : ∀ x ∈ trace, x ∈ opened ∨ ∀ y ∈ next x, y ∈ trace

namespace Covers

variable {next : α → List α} {start d x : α} {trace opened rest : List α}

lemma init (next : α → List α) (start : α) : Covers next start [start] [start] where
  start_mem := List.mem_singleton.mpr rfl
  reach := by
    intro x hx
    rw [List.mem_singleton.mp hx]
    exact Reach.refl next start
  opened_mem := fun _ hx => hx
  closed := fun _ hx => Or.inl hx

/-- The neighbours of the first node are met, and those met for the first time go on the list
    unless they have no neighbours. -/
lemma step (h : Covers next start trace (d :: rest)) (hrest : ∀ x ∈ rest, x ∈ opened)
    (hopened : ∀ x ∈ opened, x ∈ rest ∨ x ∈ next d)
    (hnew : ∀ y ∈ next d, y ∈ trace ∨ y ∈ opened ∨ next y = []) :
    Covers next start (trace ++ next d) opened where
  start_mem := by simp [h.start_mem]
  reach := by
    intro x hx
    rcases List.mem_append.mp hx with hx | hx
    · exact h.reach x hx
    · exact (h.reach d (h.opened_mem d (by simp))).tail hx
  opened_mem := by
    intro x hx
    rcases hopened x hx with hx | hx
    · exact List.mem_append.mpr (Or.inl (h.opened_mem x (by simp [hx])))
    · exact List.mem_append.mpr (Or.inr hx)
  closed := by
    have hold : ∀ x ∈ trace, x ∈ opened ∨ ∀ y ∈ next x, y ∈ trace ++ next d := by
      intro x hx
      rcases h.closed x hx with hx | hx
      · rcases List.mem_cons.mp hx with rfl | hx
        · exact Or.inr fun y hy => List.mem_append.mpr (Or.inr hy)
        · exact Or.inl (hrest x hx)
      · exact Or.inr fun y hy => List.mem_append.mpr (Or.inl (hx y hy))
    intro x hx
    rcases List.mem_append.mp hx with hx | hx
    · exact hold x hx
    · rcases hnew x hx with hx | hx | hx
      · exact hold x hx
      · exact Or.inl hx
      · exact Or.inr (by simp [hx])

/-- **What a search has met when its list is empty is what can be reached.** -/
theorem mem_iff (h : Covers next start trace []) : x ∈ trace ↔ Reach next start x := by
  refine ⟨h.reach x, fun hx => ?_⟩
  induction hx with
  | refl => exact h.start_mem
  | tail _ hz ih => exact ((h.closed _ ih).resolve_left List.not_mem_nil) _ hz

end Covers

end Covers

variable [DecidableEq α]

/-- At most one edge leads to `x` from what `start` reaches, and none if `x` is `start`. -/
structure MetOnce (next : α → List α) (start x : α) : Prop where
  not_back : x = start → ∀ d, Reach next start d → x ∉ next d
  one_source : ∀ d d', Reach next start d → Reach next start d' → x ∈ next d → x ∈ next d' → d = d'
  one_edge : ∀ d, Reach next start d → (next d).count x ≤ 1

/-! ## The invariant

There is one rule for each thing that a search does: meeting a node and putting it on the list
(`Worklist.push_step`), meeting one and not (`Worklist.pass_step`), and taking the next node off
the list (`Worklist.close_step`).  `Worklist.length_le` bounds the number of nodes ever put on the
list, which is what makes a search on a finite graph end. -/

/-- The nodes met so far, those taken off the list and those that wait; of the first one that
    waits the neighbours in `done` have been met. -/
structure Worklist (next : α → List α) (start : α) (push : α → ℕ → Prop)
    [∀ x, DecidablePred (push x)] (trace popped opened done : List α) : Prop where
  trace_eq : trace = start :: popped.flatMap next ++ done
  reach : ∀ x ∈ trace, Reach next start x
  count : ∀ x, (popped ++ opened).count x = Nat.count (push x) (trace.count x)

namespace Worklist

variable {next : α → List α} {start d x y : α} {push : α → ℕ → Prop} [∀ x, DecidablePred (push x)]
  {trace popped opened rest done : List α}

/-- Before the first round. -/
lemma init (next : α → List α) (hstart : push start 0) :
    Worklist next start push [start] [] [start] [] where
  trace_eq := rfl
  reach := by
    intro x hx
    rw [List.mem_singleton.mp hx]
    exact Reach.refl next start
  count := by
    intro x
    by_cases hx : x = start
    · subst hx
      simp [Nat.count_succ, hstart]
    · simp [Ne.symm hx]

lemma opened_reach (h : Worklist next start push trace popped opened done) (hx : x ∈ opened) :
    Reach next start x := by
  have hpos : 0 < (popped ++ opened).count x := List.count_pos_iff.mpr (by simp [hx])
  rw [h.count] at hpos
  have : 0 < trace.count x := by
    by_contra hzero
    rw [Nat.eq_zero_of_not_pos hzero] at hpos
    simp at hpos
  exact h.reach x (List.count_pos_iff.mp this)

lemma popped_reach (h : Worklist next start push trace popped opened done) (hx : x ∈ popped) :
    Reach next start x := by
  have hpos : 0 < (popped ++ opened).count x := List.count_pos_iff.mpr (by simp [hx])
  rw [h.count] at hpos
  have : 0 < trace.count x := by
    by_contra hzero
    rw [Nat.eq_zero_of_not_pos hzero] at hpos
    simp at hpos
  exact h.reach x (List.count_pos_iff.mp this)

/-- How often the nodes have been met, one meeting later. -/
lemma count_concat (trace : List α) (x y : α) :
    (trace ++ [y]).count x = trace.count x + if x = y then 1 else 0 := by
  rw [List.count_append]
  split_ifs with hxy
  · rw [hxy, List.count_singleton_self]
  · have hzero : [y].count x = 0 := List.count_eq_zero_of_not_mem (by simpa using hxy)
    rw [hzero]

lemma reach_concat (h : Worklist next start push trace popped (d :: rest) done) (hy : y ∈ next d) :
    ∀ x ∈ trace ++ [y], Reach next start x := by
  intro x hx
  rcases List.mem_append.mp hx with hx | hx
  · exact h.reach x hx
  · rw [List.mem_singleton.mp hx]
    exact (h.opened_reach (by simp)).tail hy

/-- A neighbour is met and goes on the list. -/
lemma push_step (h : Worklist next start push trace popped (d :: rest) done) (hy : y ∈ next d)
    (hpush : push y (trace.count y)) :
    Worklist next start push (trace ++ [y]) popped (d :: y :: rest) (done ++ [y]) where
  trace_eq := by rw [h.trace_eq, List.append_assoc]
  reach := h.reach_concat hy
  count := by
    intro x
    have hx := h.count x
    simp only [List.count_append, List.count_cons, beq_iff_eq] at hx
    rw [count_concat]
    simp only [List.count_append, List.count_cons, beq_iff_eq]
    by_cases hxy : x = y
    · subst hxy
      rw [if_pos rfl, Nat.count_succ, if_pos hpush, ← hx]
      omega
    · simp only [if_neg hxy, Ne.symm hxy, if_false, Nat.add_zero]
      exact hx

/-- A neighbour is met and does not go on the list. -/
lemma pass_step (h : Worklist next start push trace popped (d :: rest) done) (hy : y ∈ next d)
    (hpush : ¬ push y (trace.count y)) :
    Worklist next start push (trace ++ [y]) popped (d :: rest) (done ++ [y]) where
  trace_eq := by rw [h.trace_eq, List.append_assoc]
  reach := h.reach_concat hy
  count := by
    intro x
    rw [h.count, count_concat]
    split_ifs with hxy
    · subst hxy
      rw [Nat.count_succ, if_neg hpush]
      rfl
    · rfl

/-- A neighbour without neighbours that need not go on the list: it is as good as done with. -/
lemma skip_step (h : Worklist next start push trace popped (d :: rest) done) (hy : y ∈ next d)
    (hpush : push y (trace.count y)) (hnil : next y = []) :
    Worklist next start push (trace ++ [y]) (popped ++ [y]) (d :: rest) (done ++ [y]) where
  trace_eq := by
    rw [h.trace_eq, List.flatMap_append]
    simp [hnil]
  reach := h.reach_concat hy
  count := by
    intro x
    have hx := h.count x
    simp only [List.count_append, List.count_cons, beq_iff_eq] at hx
    rw [count_concat]
    simp only [List.count_append, List.count_cons, List.count_nil, beq_iff_eq]
    by_cases hxy : x = y
    · subst hxy
      rw [if_pos rfl, Nat.count_succ, if_pos hpush, ← hx]
      omega
    · simp only [if_neg hxy, Ne.symm hxy, if_false, Nat.add_zero]
      exact hx

/-- All neighbours of the first node have been met. -/
lemma close_step (h : Worklist next start push trace popped (d :: rest) (next d)) :
    Worklist next start push trace (popped ++ [d]) rest [] where
  trace_eq := by
    rw [h.trace_eq]
    simp
  reach := h.reach
  count := by
    intro x
    rw [← h.count x]
    simp only [List.count_append, List.count_cons, List.count_nil]
    omega

/-- The list never gets longer than the pushes that can be made. -/
lemma length_le (h : Worklist next start push trace popped opened done) {R : Finset α}
    (hR : ∀ x, Reach next start x → x ∈ R) {c : ℕ} (hc : ∀ x n, Nat.count (push x) n ≤ c) :
    popped.length + opened.length ≤ R.card * c := by
  have hmem : ∀ x ∈ popped ++ opened, x ∈ R := by
    intro x hx
    rcases List.mem_append.mp hx with hx | hx
    · exact hR x (h.popped_reach hx)
    · exact hR x (h.opened_reach hx)
  calc popped.length + opened.length = (popped ++ opened).length := List.length_append.symm
    _ = ∑ x ∈ R, (popped ++ opened).count x := by
        have hcard := Multiset.sum_count_eq_card (s := R)
          (m := ((popped ++ opened : List α) : Multiset α)) fun x hx => hmem x (by simpa using hx)
        simpa using hcard.symm
    _ ≤ ∑ _x ∈ R, c := Finset.sum_le_sum fun x _ => by
        rw [h.count]
        exact hc x _
    _ = R.card * c := by rw [Finset.sum_const, smul_eq_mul]

/-- A neighbour of the node in hand that a single edge leads to has not been met before, when
    only first meetings put nodes on the list. -/
lemma notMem_of_metOnce (h : Worklist next start push trace popped (d :: rest) done)
    (hpush : ∀ x k, push x k → k = 0) (hy : MetOnce next start y) {ys : List α}
    (hnext : next d = done ++ y :: ys) : y ∉ trace := by
  have hyd : y ∈ next d := by simp [hnext]
  have hd : Reach next start d := h.opened_reach (by simp)
  have hle : ∀ n, Nat.count (push d) n ≤ 1 := by
    intro n
    induction n with
    | zero => simp
    | succ n ih =>
        rw [Nat.count_succ]
        split_ifs with hn
        · rw [hpush d n hn]
          simp
        · exact ih
  have hpopped : d ∉ popped := by
    intro hmem
    have hcount := h.count d
    have hpos : 0 < popped.count d := List.count_pos_iff.mpr hmem
    rw [List.count_append, List.count_cons_self] at hcount
    have := hle (trace.count d)
    omega
  rw [h.trace_eq]
  simp only [List.cons_append, List.mem_cons, List.mem_append, List.mem_flatMap]
  rintro (hstart | ⟨d', hd', hyd'⟩ | hdone)
  · exact hy.not_back hstart d hd hyd
  · rw [hy.one_source d' d (h.popped_reach hd') hd hyd' hyd] at hd'
    exact hpopped hd'
  · have hone := hy.one_edge d hd
    have hpos : 0 < done.count y := List.count_pos_iff.mpr hdone
    rw [hnext, List.count_append, List.count_cons_self] at hone
    omega

/-! ## At the end

With nothing left on the list the meetings are exactly what can be reached, and how often a node
was met is the number of edges that lead to it from what was taken off the list, with
multiplicity. -/

section Done

variable (h : Worklist next start push trace popped [] [])
include h

/-- **The nodes met are those that can be reached**, when a first meeting always puts a node on
    the list. -/
theorem mem_trace_iff (hfirst : ∀ x, push x 0) : x ∈ trace ↔ Reach next start x := by
  refine ⟨h.reach x, fun hx => ?_⟩
  induction hx with
  | refl => simp [h.trace_eq]
  | @tail y z _ hz ih =>
      have hpos : 0 < (popped ++ []).count y := by
        rw [h.count]
        obtain ⟨n, hn⟩ := Nat.exists_eq_succ_of_ne_zero (List.count_pos_iff.mpr ih).ne'
        rw [hn, Nat.succ_eq_add_one, Nat.count_succ']
        simp [hfirst y]
      have hmem : y ∈ popped := by simpa using List.count_pos_iff.mp hpos
      rw [h.trace_eq]
      simp only [List.append_nil, List.mem_cons, List.mem_flatMap]
      exact Or.inr ⟨y, hmem, hz⟩

lemma mem_popped (hfirst : ∀ x, push x 0) (hx : Reach next start x) : x ∈ popped := by
  have hpos : 0 < (popped ++ []).count x := by
    rw [h.count]
    obtain ⟨n, hn⟩ :=
      Nat.exists_eq_succ_of_ne_zero (List.count_pos_iff.mpr ((h.mem_trace_iff hfirst).mpr hx)).ne'
    rw [hn, Nat.succ_eq_add_one, Nat.count_succ']
    simp [hfirst x]
  simpa using List.count_pos_iff.mp hpos

lemma count_trace (x : α) :
    trace.count x = (if start = x then 1 else 0) + (popped.flatMap next).count x := by
  rw [h.trace_eq, List.append_nil, List.count_cons]
  simp only [beq_iff_eq]
  omega

/-- A node that is met once has at most one edge to it. -/
lemma metOnce_of_count (hfirst : ∀ x, push x 0) (hx : trace.count x ≤ 1) :
    MetOnce next start x := by
  rw [h.count_trace] at hx
  have hsplit : ∀ d, Reach next start d → ∃ l₁ l₂, popped = l₁ ++ d :: l₂ := fun d hd =>
    List.append_of_mem (h.mem_popped hfirst hd)
  refine ⟨?_, ?_, ?_⟩
  · rintro rfl d hd hxd
    have hpos : 0 < (popped.flatMap next).count x :=
      List.count_pos_iff.mpr (List.mem_flatMap.mpr ⟨d, h.mem_popped hfirst hd, hxd⟩)
    rw [if_pos rfl] at hx
    omega
  · intro d d' hd hd' hxd hxd'
    by_contra hne
    obtain ⟨l₁, l₂, hl⟩ := hsplit d hd
    have hmem' : d' ∈ l₁ ++ l₂ := by
      have hd'mem := h.mem_popped hfirst hd'
      rw [hl] at hd'mem
      simp only [List.mem_append, List.mem_cons] at hd'mem ⊢
      rcases hd'mem with hm | rfl | hm
      · exact Or.inl hm
      · exact absurd rfl hne
      · exact Or.inr hm
    have hpos : 0 < (next d).count x := List.count_pos_iff.mpr hxd
    have hpos' : 0 < ((l₁ ++ l₂).flatMap next).count x :=
      List.count_pos_iff.mpr (List.mem_flatMap.mpr ⟨d', hmem', hxd'⟩)
    rw [hl] at hx
    simp only [List.flatMap_append, List.flatMap_cons, List.count_append] at hx hpos'
    omega
  · intro d hd
    obtain ⟨l₁, l₂, hl⟩ := hsplit d hd
    rw [hl] at hx
    simp only [List.flatMap_append, List.flatMap_cons, List.count_append] at hx
    omega

end Done

/-- Neighbours of nodes that are taken off once, when a single edge leads to `x`. -/
lemma count_flatMap_le {l : List α} (hcount : ∀ d ∈ l, x ∈ next d → l.count d ≤ 1)
    (hone : ∀ d ∈ l, ∀ d' ∈ l, x ∈ next d → x ∈ next d' → d = d')
    (hedge : ∀ d ∈ l, (next d).count x ≤ 1) : (l.flatMap next).count x ≤ 1 := by
  induction l with
  | nil => simp
  | cons d l ih =>
      have hl := ih
        (fun d' hd' hx => (List.count_le_count_cons (a := d') (b := d) (l := l)).trans
          (hcount d' (by simp [hd']) hx))
        (fun d₁ h₁ d₂ h₂ => hone d₁ (by simp [h₁]) d₂ (by simp [h₂]))
        (fun d' hd' => hedge d' (by simp [hd']))
      rw [List.flatMap_cons, List.count_append]
      by_cases hxd : x ∈ next d
      · have hzero : (l.flatMap next).count x = 0 := by
          rw [List.count_eq_zero]
          intro hmem
          obtain ⟨d', hd', hxd'⟩ := List.mem_flatMap.mp hmem
          have heq := hone d (by simp) d' (by simp [hd']) hxd hxd'
          subst heq
          have hle := hcount d (by simp) hxd
          have hpos : 0 < l.count d := List.count_pos_iff.mpr hd'
          rw [List.count_cons_self] at hle
          omega
        have hd := hedge d (by simp)
        omega
      · have hzero : (next d).count x = 0 := List.count_eq_zero.mpr hxd
        omega

/-- **When single edges lead to the nodes that a search marks late, it meets each of them once**,
    and takes every node off the list once. -/
theorem popped_le_one (h : Worklist next start push trace popped [] []) (late : α → Prop)
    (hpush : ∀ x k, ¬ late x → push x k → k = 0)
    (honce : ∀ x, Reach next start x → late x → MetOnce next start x) (hx : Reach next start x) :
    popped.count x ≤ 1 ∧ (late x → trace.count x ≤ 1) := by
  have hearly : ∀ y n, ¬ late y → Nat.count (push y) n ≤ 1 := by
    intro y n hy
    induction n with
    | zero => simp
    | succ n ih =>
        rw [Nat.count_succ]
        split_ifs with hn
        · rw [hpush y n hy hn]
          simp
        · exact ih
  have hpop : ∀ y, popped.count y = Nat.count (push y) (trace.count y) := by
    intro y
    simpa using h.count y
  have hlate : ∀ y, trace.count y ≤ 1 → popped.count y ≤ 1 := by
    intro y hy
    rw [hpop]
    exact (Nat.count_le _).trans hy
  have hstep : ∀ y, Reach next start y →
      (∀ d, Reach next start d → y ∈ next d → popped.count d ≤ 1) →
      popped.count y ≤ 1 ∧ (late y → trace.count y ≤ 1) := by
    intro y hy hsource
    by_cases hl : late y
    · have hmet := honce y hy hl
      have htrace : trace.count y ≤ 1 := by
        rw [h.count_trace]
        split_ifs with hs
        · -- no edge leads back to the start
          have hzero : (popped.flatMap next).count y = 0 := by
            rw [List.count_eq_zero]
            intro hmem
            obtain ⟨d, hd, hyd⟩ := List.mem_flatMap.mp hmem
            exact hmet.not_back hs.symm d (h.popped_reach hd) hyd
          omega
        · have := count_flatMap_le (x := y) (l := popped)
            (fun d hd hyd => hsource d (h.popped_reach hd) hyd)
            (fun d hd d' hd' => hmet.one_source d d' (h.popped_reach hd) (h.popped_reach hd'))
            (fun d hd => hmet.one_edge d (h.popped_reach hd))
          omega
      exact ⟨hlate y htrace, fun _ => htrace⟩
    · exact ⟨(hpop y).le.trans (hearly y _ hl), fun hl' => absurd hl' hl⟩
  induction hx with
  | refl =>
      by_cases hl : late start
      · refine hstep start (Reach.refl next start) fun d hd hsd => ?_
        exact absurd hsd ((honce start (Reach.refl next start) hl).not_back rfl d hd)
      · exact ⟨(hpop start).le.trans (hearly start _ hl), fun hl' => absurd hl' hl⟩
  | @tail y z hy hz ih =>
      by_cases hl : late z
      · refine hstep z (hy.tail hz) fun d hd hzd => ?_
        rw [(honce z (hy.tail hz) hl).one_source d y hd hy hzd hz]
        exact ih.1
      · exact ⟨(hpop z).le.trans (hearly z _ hl), fun hl' => absurd hl' hl⟩

end Worklist

end KLRM
