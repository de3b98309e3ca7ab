import Mathlib.Tactic

/-!
# Intrusive circular lists

The doubly linked lists of a kernel: the links are fields of the objects on the list, the list
ends where it began, and an object that is freed takes its links with it.  A memory of links
(`Links`) has nothing at a link whose object is not there, and every operation that follows a
pointer into it fails.

`Ring m head xs` says that the links from `head` lead through `xs` and back, in both directions.
The operations are stated on rings: what `listAdd` and `listDel` do to the list, and that no other
link changes.  A loop over a list is `forEach`, with one rule for what it does (`Ring.forEach`),
and a loop that stops at the first match is `search`.  `drain` is the loop that frees the elements
one step behind its cursor.
-/

namespace KLRM

variable {α : Type*}

/-- The two pointers of a link; `list_del` leaves poison in both. -/
structure Link (α : Type*) where
  next : Option α
  prev : Option α

/-- The links that are in memory. -/
def Links (α : Type*) : Type _ := α → Option (Link α)

namespace Links

/-- The link is inside an object that is there. -/
def Alive (m : Links α) (a : α) : Prop := (m a).isSome

/-- `a->next`. -/
def next (m : Links α) (a : α) : Option α := (m a).bind Link.next

/-- `a->prev`. -/
def prev (m : Links α) (a : α) : Option α := (m a).bind Link.prev

/-- The objects of some links are freed. -/
def free (m : Links α) (gone : α → Bool) : Links α := fun c => if gone c then none else m c

lemma alive_of_next {m : Links α} {a b : α} (h : m.next a = some b) : m.Alive a := by
  unfold Alive
  cases hm : m a with
  | none => simp [next, hm] at h
  | some l => simp

lemma alive_congr {m m' : Links α} {c : α} (h : m' c = m c) : m'.Alive c ↔ m.Alive c := by
  rw [Alive, Alive, h]

@[simp] lemma free_of_not {m : Links α} {gone : α → Bool} {c : α} (h : gone c = false) :
    m.free gone c = m c := by
  simp [free, h]

@[simp] lemma free_of {m : Links α} {gone : α → Bool} {c : α} (h : gone c = true) :
    m.free gone c = none := by
  simp [free, h]

section Operations

variable [DecidableEq α]

/-- A link is written, its object being there. -/
def write (m : Links α) (a : α) (l : Link α) : Links α := fun c => if c = a then some l else m c

/-- `a->next = b`. -/
def setNext (m : Links α) (a b : α) : Option (Links α) :=
  (m a).map fun l => m.write a { l with next := some b }

/-- `a->prev = b`. -/
def setPrev (m : Links α) (a b : α) : Option (Links α) :=
  (m a).map fun l => m.write a { l with prev := some b }

/-- `list_add`: `a` between `head` and what follows it. -/
def listAdd (m : Links α) (a head : α) : Option (Links α) :=
  (m.next head).bind fun first =>
    (m.setPrev first a).bind fun m => (m.setNext a first).bind fun m => (m.setPrev a head).bind
      fun m => m.setNext head a

/-- `list_del`: what is around `a` is joined, and `a` keeps no pointer. -/
def listDel (m : Links α) (a : α) : Option (Links α) :=
  (m.next a).bind fun next =>
    (m.prev a).bind fun prev =>
      (m.setPrev next prev).bind fun m =>
        (m.setNext prev next).bind fun m => (m a).map fun _ => m.write a ⟨none, none⟩

/-- `list_for_each` from the cursor `tmp` on, in a state that holds the links. -/
def forEach {σ : Type*} (links : σ → Links α) (body : α → σ → Option σ) (head : α) :
    (fuel : ℕ) → (tmp : α) → σ → Option σ
  | 0, _, _ => none
  | fuel + 1, tmp, s =>
      if tmp = head then some s
      else (body tmp s).bind fun s => ((links s).next tmp).bind fun tmp =>
        forEach links body head fuel tmp s

/-- `list_for_each` that stops at the first element with a property; reading it may fail. -/
def search (m : Links α) (p : α → Option Bool) (head : α) :
  (fuel : ℕ) → (tmp : α) → Option (Option α)
  | 0, _ => none
  | fuel + 1, tmp =>
      if tmp = head then some none
      else (p tmp).bind fun hit => if hit then some (some tmp) else (m.next tmp).bind fun tmp =>
        search m p head fuel tmp

/-- `if (prev != NULL) { list_del(prev) ; kmem_cache_free(prev) ; }`, with the elements freed so
    far. -/
def release (owned : α → α → Bool) (prev : Option α) (s : Links α × List α) :
    Option (Links α × List α) :=
  match prev with
  | none => some s
  | some a => (s.1.listDel a).map fun m => (m.free (owned a), s.2 ++ [a])

/-- The loop that frees the element before its cursor, and the last one after it. -/
def drain (owned : α → α → Bool) (head : α) (fuel : ℕ) (m : Links α) : Option (Links α × List α) :=
  (m.next head).bind fun first =>
    (forEach (fun s => s.2.1) (fun tmp s => (release owned s.1 s.2).map fun r => (some tmp, r))
      head fuel first (none, m, [])).bind fun s => release owned s.1 s.2

/-! ## The operations, link by link

What one pointer write does, and what `listAdd` and `listDel` do to the links next to the element.
Nothing is said of a list yet: these are the statements that hold in any memory, whatever the
links lead to. -/

section Observations

variable {m : Links α} {a b c : α}

@[simp] lemma next_write (l : Link α) :
    (m.write a l).next c = if c = a then l.next else m.next c := by
  unfold next write
  by_cases h : c = a
  · subst h
    simp
  · simp [h]

@[simp] lemma prev_write (l : Link α) :
    (m.write a l).prev c = if c = a then l.prev else m.prev c := by
  unfold prev write
  by_cases h : c = a
  · subst h
    simp
  · simp [h]

lemma write_of_ne (l : Link α) (h : c ≠ a) : m.write a l c = m c := if_neg h

lemma alive_write (l : Link α) : (m.write a l).Alive c ↔ c = a ∨ m.Alive c := by
  unfold Alive write
  by_cases h : c = a
  · subst h
    simp
  · simp [h]

lemma setNext_eq (h : m.Alive a) : m.setNext a b = some (m.write a ⟨some b, m.prev a⟩) := by
  obtain ⟨l, hl⟩ := Option.isSome_iff_exists.mp h
  simp [setNext, prev, hl]

lemma setPrev_eq (h : m.Alive a) : m.setPrev a b = some (m.write a ⟨m.next a, some b⟩) := by
  obtain ⟨l, hl⟩ := Option.isSome_iff_exists.mp h
  simp [setPrev, next, hl]

/-- What two memories of links have in common outside some of them. -/
structure SameOutside (m m' : Links α) (cells : List α) : Prop where
  same : ∀ c, c ∉ cells → m' c = m c
  alive : ∀ c, m'.Alive c ↔ m.Alive c

/-- **`list_add`, link by link.** -/
lemma listAdd_eq {head first : α} (hfirst : m.next head = some first) (hf : m.Alive first)
    (ha : m.Alive a) (hah : a ≠ head) (haf : a ≠ first) : ∃ m', m.listAdd a head = some m' ∧
      (∀ c, m'.next c = if c = head then some a else if c = a then some first else m.next c) ∧
      (∀ c, m'.prev c = if c = a then some head else if c = first then some a else m.prev c) ∧
      SameOutside m m' [a, head, first] := by
  have hh : m.Alive head := alive_of_next hfirst
  refine ⟨(((m.write first ⟨m.next first, some a⟩).write a ⟨some first, m.prev a⟩).write a
    ⟨some first, some head⟩).write head ⟨some a, if head = first then some a else m.prev head⟩, ?_,
    ?_, ?_, ?_, ?_⟩
  · simp only [listAdd, hfirst, Option.bind_some, setPrev_eq hf]
    rw [setNext_eq ((alive_write _).mpr (Or.inr ha))]
    simp only [prev_write, haf, if_false, Option.bind_some]
    rw [setPrev_eq ((alive_write _).mpr (Or.inl rfl))]
    simp only [next_write, if_true, Option.bind_some]
    rw
      [setNext_eq ((alive_write _).mpr
        (Or.inr ((alive_write _).mpr (Or.inr ((alive_write _).mpr (Or.inr hh))))))]
    simp only [prev_write, hah.symm, if_false]
  · intro c
    by_cases hch : c = head
    · simp [hch]
    · by_cases hca : c = a
      · simp [hca]
      · by_cases hcf : c = first
        · subst hcf
          simp [hch, hca]
        · simp [hch, hca, hcf]
  · intro c
    by_cases hca : c = a
    · subst hca
      simp [hah]
    · by_cases hch : c = head
      · subst hch
        simp [hca]
      · simp [hca, hch]
  · intro c hc
    simp only [List.mem_cons, List.not_mem_nil, or_false, not_or] at hc
    rw [write_of_ne _ hc.2.1, write_of_ne _ hc.1, write_of_ne _ hc.1, write_of_ne _ hc.2.2]
  · intro c
    simp only [alive_write]
    constructor
    · rintro (rfl | rfl | rfl | rfl | h)
      · exact hh
      · exact ha
      · exact ha
      · exact hf
      · exact h
    · intro h
      exact Or.inr (Or.inr (Or.inr (Or.inr h)))

/-- **`list_del`, link by link.** -/
lemma listDel_eq {p n : α} (hnext : m.next a = some n) (hprev : m.prev a = some p) (hp : m.Alive p)
    (hn : m.Alive n) (hpa : p ≠ a) (hna : n ≠ a) : ∃ m', m.listDel a = some m' ∧
      (∀ c, m'.next c = if c = a then none else if c = p then some n else m.next c) ∧
      (∀ c, m'.prev c = if c = a then none else if c = n then some p else m.prev c) ∧
      SameOutside m m' [a, p, n] := by
  have ha : m.Alive a := alive_of_next hnext
  refine
    ⟨((m.write n ⟨m.next n, some p⟩).write p ⟨some n, if p = n then some p else m.prev p⟩).write a
    ⟨none, none⟩, ?_, ?_, ?_, ?_, ?_⟩
  · simp only [listDel, hnext, hprev, Option.bind_some, setPrev_eq hn]
    rw [setNext_eq ((alive_write _).mpr (Or.inr hp))]
    simp only [prev_write, Option.bind_some]
    have hkept : ((m.write n ⟨m.next n, some p⟩).write p
        ⟨some n, if p = n then some p else m.prev p⟩).Alive a :=
      (alive_write _).mpr (Or.inr ((alive_write _).mpr (Or.inr ha)))
    obtain ⟨l, hl⟩ := Option.isSome_iff_exists.mp hkept
    simp [hl]
  · intro c
    by_cases hca : c = a
    · simp [hca]
    · by_cases hcp : c = p
      · simp [hcp, hpa]
      · by_cases hcn : c = n
        · subst hcn
          simp [hca, hcp]
        · simp [hca, hcp, hcn]
  · intro c
    by_cases hca : c = a
    · simp [hca]
    · by_cases hcp : c = p
      · subst hcp
        simp [hca]
      · simp [hca, hcp]
  · intro c hc
    simp only [List.mem_cons, List.not_mem_nil, or_false, not_or] at hc
    rw [write_of_ne _ hc.1, write_of_ne _ hc.2.1, write_of_ne _ hc.2.2]
  · intro c
    simp only [alive_write]
    constructor
    · rintro (rfl | rfl | rfl | h)
      · exact ha
      · exact hp
      · exact hn
      · exact h
    · intro h
      exact Or.inr (Or.inr (Or.inr h))

end Observations

end Operations

/-! ## Rings

`Linked` is a segment, `Ring` a segment that comes back to its head.  An element in the middle
splits a ring into two segments, and a ring does not notice a write outside of it (`Ring.frame`);
the two operations follow from that. -/

/-- `b` follows `a`, and knows it. -/
def Linked (m : Links α) (a b : α) : Prop := m.next a = some b ∧ m.prev b = some a

/-- The links lead from `head` through `xs` and back. -/
structure Ring (m : Links α) (head : α) (xs : List α) : Prop where
  nodup : (head :: xs).Nodup
  chain : (head :: xs ++ [head]).IsChain m.Linked

/-- What follows `head` in a ring, or what precedes a part `xs` of it that ends the ring. -/
def first (head : α) (xs : List α) : α := xs.head?.getD head

/-- What precedes `head` in a ring. -/
def last (head : α) (xs : List α) : α := xs.getLast?.getD head

@[simp] lemma first_nil (head : α) : first head [] = head := rfl
@[simp] lemma first_cons (head x : α) (xs : List α) : first head (x :: xs) = x := rfl
@[simp] lemma last_nil (head : α) : last head [] = head := rfl
@[simp] lemma last_concat (head x : α) (xs : List α) : last head (xs ++ [x]) = x := by simp [last]

lemma first_mem (head : α) (xs : List α) : first head xs = head ∨ first head xs ∈ xs := by
  cases xs <;> simp

lemma last_mem (head : α) (xs : List α) : last head xs = head ∨ last head xs ∈ xs := by
  rcases List.eq_nil_or_concat' xs with rfl | ⟨l, x, rfl⟩ <;> simp

lemma head?_append_head (head : α) (xs : List α) : (xs ++ [head]).head? = some (first head xs) := by
  cases xs <;> simp

lemma getLast?_cons_head (head : α) (xs : List α) :
    (head :: xs).getLast? = some (last head xs) := by
  rcases List.eq_nil_or_concat' xs with rfl | ⟨l, x, rfl⟩
  · rfl
  · rw [last_concat, ← List.cons_append, List.getLast?_concat]

namespace Ring

variable {m m' : Links α} {head a : α} {xs l r : List α}

lemma linked_of_split (h : Ring m head xs) {a b : α} {l r : List α}
    (hs : head :: xs ++ [head] = l ++ a :: b :: r) :
    m.Linked a b := List.isChain_iff_forall_rel_of_append_cons_cons.mp h.chain hs

lemma linked_first (h : Ring m head xs) : m.Linked head (first head xs) := by
  cases xs with
  | nil => exact h.linked_of_split (l := []) (r := []) rfl
  | cons x xs => exact h.linked_of_split (l := []) rfl

lemma linked_next (h : Ring m head (l ++ a :: r)) : m.Linked a (first head r) := by
  cases r with
  | nil => exact h.linked_of_split (l := head :: l) (r := []) (by simp)
  | cons x r => exact h.linked_of_split (l := head :: l) (r := r ++ [head]) (by simp)

lemma linked_prev (h : Ring m head (l ++ a :: r)) : m.Linked (last head l) a := by
  rcases List.eq_nil_or_concat' l with rfl | ⟨l, x, rfl⟩
  · exact h.linked_of_split (l := []) (r := r ++ [head]) (by simp)
  · simpa using h.linked_of_split (a := x) (b := a) (l := head :: l) (r := r ++ [head]) (by simp)

lemma alive (h : Ring m head xs) {c : α} (hc : c ∈ head :: xs) : m.Alive c := by
  rcases List.mem_cons.mp hc with rfl | hc
  · exact alive_of_next h.linked_first.1
  · obtain ⟨l, r, rfl⟩ := List.append_of_mem hc
    exact alive_of_next h.linked_next.1

lemma head_not_mem (h : Ring m head xs) : head ∉ xs := (List.nodup_cons.mp h.nodup).1

lemma nodup_tail (h : Ring m head xs) : xs.Nodup := (List.nodup_cons.mp h.nodup).2

/-- A ring depends on its own links only. -/
lemma frame (h : Ring m head xs) (hsame : ∀ c ∈ head :: xs, m' c = m c) : Ring m' head xs where
  nodup := h.nodup
  chain := by
    refine h.chain.imp_of_mem_imp fun u v hu hv huv => ?_
    have hmem : ∀ w ∈ head :: xs ++ [head], w ∈ head :: xs := by
      intro w hw
      simpa [or_comm, or_assoc] using hw
    unfold Linked next prev at huv ⊢
    rw [hsame u (hmem u hu), hsame v (hmem v hv)]
    exact huv

/-- `INIT_LIST_HEAD`: a link that points to itself. -/
lemma init (hhead : m head = some ⟨some head, some head⟩) : Ring m head [] where
  nodup := by simp
  chain := by simp [Linked, next, prev, hhead]

/-- The link of an empty list points to itself. -/
lemma eq_of_nil (h : Ring m head []) : m head = some ⟨some head, some head⟩ := by
  obtain ⟨hnext, hprev⟩ := h.linked_first
  obtain ⟨⟨n, p⟩, hl⟩ := Option.isSome_iff_exists.mp (alive_of_next hnext)
  obtain rfl : n = some head := by simpa [next, hl] using hnext
  obtain rfl : p = some head := by simpa [prev, hl] using hprev
  exact hl

variable [DecidableEq α]

/-- **`list_add` on a ring**: the new element is the first. -/
theorem listAdd (h : Ring m head xs) (ha : a ∉ head :: xs) (halive : m.Alive a) :
    ∃ m', m.listAdd a head = some m' ∧ Ring m' head (a :: xs) ∧
    SameOutside m m' (a :: head :: xs) := by
  obtain ⟨hah, hax⟩ := not_or.mp fun hor => ha (List.mem_cons.mpr hor)
  have hmem : first head xs ∈ head :: xs := List.mem_cons.mpr (first_mem head xs)
  have haf : a ≠ first head xs := fun e => ha (e ▸ hmem)
  obtain ⟨m', heq, hnext, hprev, hout⟩ := listAdd_eq h.linked_first.1 (h.alive hmem) halive hah haf
  refine ⟨m', heq, ⟨?_, ?_⟩, ?_, hout.alive⟩
  · simp only [List.nodup_cons, List.mem_cons, not_or]
    exact ⟨⟨Ne.symm hah, h.head_not_mem⟩, hax, h.nodup_tail⟩
  · -- no link of the rest leaves `head` or enters the first element, so those are as they were
    have hrest : (xs ++ [head]).IsChain m'.Linked := by
      refine h.chain.tail.imp_of_mem_tail_imp fun u v hu hv huv => ?_
      have hvf : v ≠ first head xs := by
        rintro rfl
        cases xs with
        | nil => simp at hv
        | cons x xs =>
            have hx := List.nodup_cons.mp h.nodup_tail
            have hhx := h.head_not_mem
            simp only [List.mem_cons, not_or] at hhx
            simp only [List.cons_append, List.tail_cons, first_cons, List.mem_append,
              List.mem_singleton] at hv
            exact hv.elim hx.1 (Ne.symm hhx.1)
      have huh : u ≠ head := by
        rintro rfl
        exact hvf (Option.some.inj (huv.1.symm.trans h.linked_first.1))
      have hne : ∀ w ∈ xs ++ [head], w ≠ a := by
        rintro w hw rfl
        exact ha (by simpa [or_comm] using hw)
      exact ⟨by rw [hnext, if_neg huh, if_neg (hne u hu)]; exact huv.1,
        by rw [hprev, if_neg (hne v (List.mem_of_mem_tail hv)), if_neg hvf]; exact huv.2⟩
    have hfirst : m'.Linked head a := ⟨by rw [hnext, if_pos rfl], by rw [hprev, if_pos rfl]⟩
    have hsecond : m'.Linked a (first head xs) :=
      ⟨by rw [hnext, if_neg hah, if_pos rfl], by rw [hprev, if_neg haf.symm, if_pos rfl]⟩
    rw [List.cons_append, List.cons_append, List.isChain_cons_cons, List.isChain_cons]
    refine ⟨hfirst, fun y hy => ?_, hrest⟩
    rw [head?_append_head, Option.mem_some_iff] at hy
    exact hy ▸ hsecond
  · intro c hc
    refine hout.same c fun hin => hc ?_
    simp only [List.mem_cons, List.not_mem_nil, or_false] at hin
    rcases hin with rfl | rfl | rfl
    · simp
    · simp
    · exact List.mem_cons_of_mem a hmem

/-- **`list_del` on a ring**: the element leaves it. -/
theorem listDel (h : Ring m head (l ++ a :: r)) :
    ∃ m', m.listDel a = some m' ∧ Ring m' head (l ++ r) ∧
    SameOutside m m' (head :: (l ++ a :: r)) := by
  have hnot : a ∉ head :: l ++ r ∧ (head :: l ++ r).Nodup :=
    List.nodup_cons.mp ((@List.perm_middle _ a (head :: l) r).nodup_iff.mp h.nodup)
  have hne : ∀ c ∈ head :: l ++ r, c ≠ a := by
    rintro c hc rfl
    exact hnot.1 hc
  have hp : last head l ∈ head :: l := List.mem_cons.mpr (last_mem head l)
  have hn : first head r ∈ r ++ [head] := by
    rcases first_mem head r with h | h <;> simp [h]
  have hpa : last head l ≠ a := hne _ (List.mem_append_left r hp)
  have hna : first head r ≠ a := hne _ (by
    rcases first_mem head r with h | h <;> simp [h])
  obtain ⟨m', heq, hnext, hprev, hout⟩ := listDel_eq h.linked_next.1 h.linked_prev.2
    (alive_of_next h.linked_prev.1)
    (h.alive (by rcases first_mem head r with h | h <;> simp [h])) hpa hna
  refine ⟨m', heq, ⟨hnot.2, ?_⟩, ?_, hout.alive⟩
  · -- a link that neither left nor entered `a` is as it was
    have hkeep : ∀ u v, u ≠ a → v ≠ a → m.Linked u v → m'.Linked u v := by
      rintro u v hu hv ⟨huv, hvu⟩
      have hup : u ≠ last head l := by
        rintro rfl
        exact hv (Option.some.inj (huv.symm.trans h.linked_prev.1))
      have hvn : v ≠ first head r := by
        rintro rfl
        exact hu (Option.some.inj (hvu.symm.trans h.linked_next.2))
      exact ⟨by rw [hnext, if_neg hu, if_neg hup]; exact huv,
        by rw [hprev, if_neg hv, if_neg hvn]; exact hvu⟩
    have hchain := h.chain
    rw [show head :: (l ++ a :: r) ++ [head] = (head :: l) ++ a :: (r ++ [head]) by simp,
      List.isChain_append]
      at hchain
    obtain ⟨hleft, hright, -⟩ := hchain
    rw [show head :: (l ++ r) ++ [head] = (head :: l) ++ (r ++ [head]) by simp, List.isChain_append]
    refine ⟨?_, ?_, ?_⟩
    · exact hleft.imp_of_mem_imp fun u v hu hv => hkeep u v (hne u (List.mem_append_left r hu))
        (hne v (List.mem_append_left r hv))
    · have hne' : ∀ c ∈ r ++ [head], c ≠ a := by
        intro c hc
        refine hne c ?_
        rcases List.mem_append.mp hc with h | h <;> simp_all
      exact hright.tail.imp_of_mem_imp fun u v hu hv => hkeep u v (hne' u hu) (hne' v hv)
    · intro x hx y hy
      rw [getLast?_cons_head, Option.mem_some_iff] at hx
      rw [head?_append_head, Option.mem_some_iff] at hy
      subst hx hy
      exact ⟨by rw [hnext, if_neg hpa, if_pos rfl], by rw [hprev, if_neg hna, if_pos rfl]⟩
  · intro c hc
    refine hout.same c fun hin => hc ?_
    simp only [List.mem_cons, List.not_mem_nil, or_false] at hin
    rcases hin with rfl | rfl | rfl
    · simp
    · rcases last_mem head l with h | h <;> simp [h]
    · rcases first_mem head r with h | h <;> simp [h]

/-! ## The loops

A `list_for_each` over a ring visits its elements in order, whatever the body does to other
memory, as long as the ring is there when the cursor moves on.  The number of rounds is bounded by
fuel; a ring is finite, so that enough fuel is always there. -/

/-- **The rule for `list_for_each`.**  What the body keeps from one element to the next, the loop
    keeps from the first to the last. -/
theorem forEach {σ : Type*} {links : σ → Links α} {body : α → σ → Option σ} {head : α}
    {Inv : List α → σ → Prop}
    (hbody : ∀ y ys s, Inv (y :: ys) s → y ≠ head ∧
      ∃ s', body y s = some s' ∧ (links s').next y = some (first head ys) ∧ Inv ys s') :
    ∀ (xs : List α) (fuel : ℕ) (s : σ), xs.length < fuel → Inv xs s →
      ∃ s', Links.forEach links body head fuel (first head xs) s = some s' ∧ Inv [] s' := by
  intro xs
  induction xs with
  | nil =>
      intro fuel s hfuel hs
      obtain ⟨fuel, rfl⟩ := Nat.exists_eq_succ_of_ne_zero (by simp at hfuel; omega : fuel ≠ 0)
      exact ⟨s, by simp [Links.forEach], hs⟩
  | cons y ys ih =>
      intro fuel s hfuel hs
      obtain ⟨fuel, rfl⟩ := Nat.exists_eq_succ_of_ne_zero (by simp at hfuel; omega : fuel ≠ 0)
      obtain ⟨hyh, s', hs', hnext, hinv⟩ := hbody y ys s hs
      obtain ⟨t, ht, hdone⟩ := ih fuel s' (by simpa using hfuel) hinv
      exact ⟨t, by simp [Links.forEach, hyh, hs', hnext, ht], hdone⟩

/-- A search from the middle of a ring. -/
lemma search_from {p : α → Option Bool} {q : α → Bool} (hp : ∀ x ∈ xs, p x = some (q x)) :
    ∀ done : List α, Ring m head (done ++ xs) → ∀ fuel : ℕ, xs.length < fuel →
      m.search p head fuel (first head xs) = some (xs.find? q) := by
  induction xs with
  | nil =>
      intro done h fuel hfuel
      obtain ⟨fuel, rfl⟩ := Nat.exists_eq_succ_of_ne_zero (by simp at hfuel; omega : fuel ≠ 0)
      simp [Links.search]
  | cons x xs ih =>
      intro done h fuel hfuel
      obtain ⟨fuel, rfl⟩ := Nat.exists_eq_succ_of_ne_zero (by simp at hfuel; omega : fuel ≠ 0)
      have hxh : x ≠ head := by
        rintro rfl
        exact h.head_not_mem (by simp)
      have hrest :=
        ih (fun y hy => hp y (List.mem_cons_of_mem x hy)) (done ++ [x]) (by simpa using h) fuel
        (by simpa using hfuel)
      cases hq : q x <;> simp [Links.search, hxh, hp x, hq, h.linked_next.1, hrest]

/-- **The rule for a search**: the first element with the property, if there is one. -/
theorem search (h : Ring m head xs) {p : α → Option Bool} {q : α → Bool}
    (hp : ∀ x ∈ xs, p x = some (q x)) {fuel : ℕ}
    (hfuel : xs.length < fuel) : (m.next head).bind (m.search p head fuel) = some (xs.find? q) := by
  rw [h.linked_first.1, Option.bind_some, search_from hp [] h fuel hfuel]

/-! ## Freeing a ring

A loop that frees the elements of a list keeps the previous one in a second cursor, and frees it
one round late.  `Draining` is what holds between two rounds: the freed elements are gone from the
ring, and the one that is to be freed next is still its first element. -/

/-- In the middle of freeing the elements of a ring: those in `freed` are gone, and `rest` is
    what it holds. -/
structure Draining (owned : α → α → Bool) (m : Links α) (head : α) (freed rest : List α)
    (m₁ : Links α) : Prop where
  ring : Ring m₁ head rest
  same : ∀ c, c ∉ head :: (freed ++ rest) → (∀ a ∈ freed, owned a c = false) → m₁ c = m c
  alive : ∀ c, m₁.Alive c ↔ m.Alive c ∧ ∀ a ∈ freed, owned a c = false

/-- An object on the ring has its own link, and no other link of the ring. -/
def Owns (owned : α → α → Bool) (head : α) (xs : List α) : Prop :=
  ∀ a ∈ xs, owned a a = true ∧ ∀ c ∈ head :: xs, c ≠ a → owned a c = false

/-- Freeing the first element that is left. -/
lemma Draining.release {owned : α → α → Bool} {freed rest : List α} {m₁ : Links α}
    (h : Draining owned m head freed (a :: rest) m₁) (hown : Owns owned head (freed ++ a :: rest)) :
    ∃ m₂, Links.release owned (some a) (m₁, freed) = some (m₂, freed ++ [a]) ∧
      Draining owned m head (freed ++ [a]) rest m₂ := by
  obtain ⟨m', hdel, hring, hout⟩ := h.ring.listDel (l := [])
  refine ⟨m'.free (owned a), by simp [Links.release, hdel], ?_, ?_, ?_⟩
  · refine hring.frame fun c hc => free_of_not ((hown a (by simp)).2 c ?_ ?_)
    · rcases List.mem_cons.mp hc with rfl | hc
      · simp
      · simp at hc
        simp [hc]
    · rintro rfl
      have := (List.nodup_cons.mp ((@List.perm_middle _ _ [head] rest).nodup_iff.mp h.ring.nodup)).1
      exact this (by simpa using hc)
  · intro c hc hnot
    rw [free_of_not (hnot a (by simp)), hout.same c fun hin => hc (by
      simp only [List.mem_cons, List.nil_append, List.mem_append] at hin ⊢
      tauto)]
    exact h.same c (by simpa [or_assoc] using hc) fun b hb => hnot b (by simp [hb])
  · intro c
    have hfree : (m'.free (owned a)).Alive c ↔ m'.Alive c ∧ owned a c = false := by
      unfold Alive
      cases hc : owned a c <;> simp [hc]
    rw [hfree, hout.alive, h.alive]
    simp only [List.mem_append, List.mem_singleton]
    constructor
    · rintro ⟨⟨hm, hb⟩, ha⟩
      exact ⟨hm, fun b hb' => hb'.elim (hb b) fun e => e ▸ ha⟩
    · rintro ⟨hm, hb⟩
      exact ⟨⟨hm, fun b hb' => hb b (Or.inl hb')⟩, hb a (Or.inr rfl)⟩

/-- **The loop that frees a ring frees every element once, in order**, and touches no link
    outside the ring but those that go with the objects. -/
theorem drain {owned : α → α → Bool} (h : Ring m head xs) (hown : Owns owned head xs) {fuel : ℕ}
    (hfuel : xs.length < fuel) :
    ∃ m', m.drain owned head fuel = some (m', xs) ∧ Draining owned m head xs [] m' := by
  -- the element before the cursor is still on the ring
  let Inv : List α → Option α × Links α × List α → Prop := fun ys s =>
    xs = s.2.2 ++ s.1.toList ++ ys ∧ Draining owned m head s.2.2 (s.1.toList ++ ys) s.2.1
  have hbody : ∀ y ys s, Inv (y :: ys) s → y ≠ head ∧
      ∃ s', (Links.release owned s.1 s.2).map (fun r => (some y, r)) = some s' ∧
        s'.2.1.next y = some (first head ys) ∧ Inv ys s' := by
    rintro y ys ⟨prev, m₁, freed⟩ ⟨hxs, hdr⟩
    refine ⟨fun e => h.head_not_mem (by simp [hxs, ← e]), ?_⟩
    cases prev with
    | none => exact ⟨(some y, m₁, freed),
        rfl, (hdr.ring.linked_next (l := [])).1, by simpa using hxs, by simpa using hdr⟩
    | some a =>
        have hdr : Draining owned m head freed (a :: y :: ys) m₁ := hdr
        obtain ⟨m₂, hrel, hdr'⟩ := hdr.release (by simpa [hxs] using hown)
        exact ⟨(some y, m₂, freed ++ [a]), by simp [hrel],
          (hdr'.ring.linked_next (l := [])).1, by simpa using hxs, by simpa using hdr'⟩
  have hloop := @Ring.forEach _ _ _ (fun s => s.2.1) _ head Inv hbody xs fuel (none, m, []) hfuel
    ⟨rfl, h, fun _ _ _ => rfl, fun _ => by simp⟩
  obtain ⟨⟨prev, m₁, freed⟩, hloop, hxs, hdr⟩ := hloop
  cases prev with
  | none =>
      refine ⟨m₁, ?_, ?_⟩
      · simp only [Links.drain, h.linked_first.1, Option.bind_some, hloop]
        simpa [Links.release] using hxs.symm
      · simpa [show xs = freed by simpa using hxs] using hdr
  | some a =>
      have hdr : Draining owned m head freed [a] m₁ := hdr
      obtain ⟨m₂, hrel, hdr'⟩ := hdr.release (by simpa [hxs] using hown)
      have hxs' : xs = freed ++ [a] := by simpa using hxs
      refine ⟨m₂, ?_, hxs' ▸ hdr'⟩
      simp only [Links.drain, h.linked_first.1, Option.bind_some, hloop]
      rw [hrel, hxs']

end Ring

end Links

end KLRM
