import Mathlib
import ChunkHeap.Proofs.Neighbours
import ChunkHeap.Proofs.Twins
import ChunkHeap.Script.Host

/-!
# Heaps side by side

Each heap goes on as if it had no company, if it is granted the same ranges when
it is alone. It takes no block of another heap, because heaps that are set up
one after the other draw different ids.
-/

set_option autoImplicit false

namespace ChunkHeap

namespace World

variable {π τ : Type} [Platform π] [Platform τ] {s : World π} {t : World τ} {g : Ideal}

theorem grew_alone (deeds : List Deed) (s : World π) : s.machine.Grew (alone deeds s) := by
  induction deeds generalizing s with
  | nil => exact Machine.Grew.refl _
  | cons d deeds ih =>
    cases d with
    | act a => exact (s.grew_step a).trans (ih _)
    | drop =>
      obtain ⟨p, notes, hdrop⟩ := s.heap.drop_eq s.machine
      exact ⟨notes, (congrArg Machine.journal (hdrop s.machine.journal)).symm⟩

theorem taken_of_released {notes : List Note} {spans : List Span}
    (h : notes.map Note.released? = spans.map some) :
    notes.map Note.taken = spans.map fun r => .released r.start r.len true := by
  induction notes generalizing spans with
  | nil =>
    obtain rfl : spans = [] := by simpa using h.symm
    rfl
  | cons n notes ih =>
    cases spans with
    | nil => cases h
    | cons r spans =>
      obtain ⟨hn, hrest⟩ := List.cons.inj h
      rw [List.map_cons, List.map_cons, ih hrest]
      cases n with
      | released base len accepted =>
        obtain rfl := Option.some.inj hn
        rfl
      | reserved len base => cases hn
      | event e => cases hn

/-- Twins end with the same calls. -/
theorem Twins.requests_drop (h : Twins s t g)
    (hcalls : t.machine.provider.requests = s.machine.provider.requests) :
    (t.heap.drop t.machine).provider.requests = (s.heap.drop s.machine).provider.requests := by
  obtain ⟨notes, hs, hnotes⟩ := s.heap.calls_drop s.machine
  obtain ⟨notes', ht, hnotes'⟩ := t.heap.calls_drop t.machine
  have hregions : t.heap.regions = s.heap.regions := by
    rw [h.left.kept.represents.regions, h.right.kept.represents.regions]
  rw [hregions] at hnotes'
  have hs' : (s.heap.drop s.machine).provider.requests = _ := congrArg (List.map Note.taken) hs
  have ht' : (t.heap.drop t.machine).provider.requests = _ := congrArg (List.map Note.taken) ht
  rw [hs', ht', List.map_append, List.map_append, taken_of_released hnotes,
    taken_of_released hnotes']
  exact congrArg (· ++ _) hcalls

end World

namespace Voyage

variable {σ ρ τ : Type} [Platform (σ × ρ)] [Platform τ] {v : Voyage σ ρ} {i : ℕ}
  {s : World (σ × ρ)} {t : World τ} {g : Ideal} {deeds : List (ℕ × Deed)}

/-- A member does in company what `t` does alone. -/
structure Undisturbed (i : ℕ) (deeds : List (ℕ × Deed)) (v : Voyage σ ρ) (t : World τ) : Prop where
  valid : World.AloneValid (own i deeds) t
  trace : World.aloneTrace (own i deeds) t =
    ((Voyage.trace deeds v).filter (·.1 = i)).map Prod.snd
  requests : (World.alone (own i deeds) t).provider.requests =
    ((after deeds v).books i).provider.requests

namespace Undisturbed

theorem act {a : Action} {b : Option ℕ} (hs : v.world? i = some s)
    (ha : World.Twins.Alike s t a g b)
    (h : Undisturbed i deeds (v.next (i, .act a)) (t.step a).2) :
    Undisturbed i ((i, .act a) :: deeds) v t := by
  have hsaid : v.said (i, .act a) = some ((s.step a).1, (s.step a).2.heap.stats) := by
    rw [said, act_eq hs]
    rfl
  constructor
  · rw [own_cons_self]
    exact ⟨ha.ready, h.valid⟩
  · rw [own_cons_self, World.aloneTrace, h.trace, ha.answer, ha.stats, Voyage.trace, hsaid]
    simp
  · rw [own_cons_self]
    exact h.requests

/-- A member that ends is not heard of again. -/
theorem drop (hs : v.world? i = some s) (h : World.Twins s t g)
    (hcalls : t.machine.provider.requests = s.machine.provider.requests)
    (hv : Valid deeds (v.next (i, .drop))) : Undisturbed i ((i, .drop) :: deeds) v t := by
  have hnone : (v.next (i, .drop)).world? i = none := by
    rw [next_drop hs]
    exact world?_leave_none hs _ _
  obtain ⟨hown, htrace, hbook⟩ := absent hv hnone
  constructor
  · rw [own_cons_self]
    exact hown
  · have hsaid : v.said (i, .drop) = none := rfl
    rw [own_cons_self, Voyage.trace, hsaid]
    simp [World.aloneTrace, htrace]
  · rw [own_cons_self, after, hbook, next_drop hs]
    simp only [leave, Function.update_self]
    exact h.requests_drop hcalls

theorem other {x : ℕ × Deed} (hi : i ≠ x.1) (h : Undisturbed i deeds (v.next x) t) :
    Undisturbed i (x :: deeds) v t := by
  constructor
  · rw [own_cons_other hi]
    exact h.valid
  · rw [own_cons_other hi, h.trace, trace_cons_other hi]
  · rw [own_cons_other hi]
    exact h.requests

end Undisturbed

/-- Each member goes on as its twin does that is alone. -/
theorem undisturbed (hf : v.Afloat) (hv : Valid deeds v) (hl : LawfulOn deeds v)
    (hs : v.world? i = some s) (h : World.Twins s t g)
    (hcalls : t.machine.provider.requests = s.machine.provider.requests)
    (ht : (World.alone (own i deeds) t).Honoured)
    (hagree : Agree Eq ((after deeds v).books i).provider.answers
      (World.alone (own i deeds) t).provider.answers) : Undisturbed i deeds v t := by
  induction deeds generalizing v s t g with
  | nil =>
    refine ⟨trivial, rfl, hcalls.trans ?_⟩
    obtain ⟨m, -, rfl⟩ := exists_member hs
    rfl
  | cons x deeds ih =>
    have hf' := afloat_next hf hv.1 hl.1 hl.2.head
    by_cases hi : i = x.1
    · obtain ⟨k, d⟩ := x
      obtain rfl : i = k := hi
      rw [own_cons_self] at ht hagree
      cases d with
      | act a =>
        obtain ⟨s', hs', ha⟩ := hv.1
        obtain rfl := Option.some.inj (hs.symm.trans hs')
        have hnext : (v.next (i, .act a)).world? i = some (s.step a).2 := by
          rw [next_act hs]
          exact world?_leave_self hs _
        have hgrown := answers_after hv.2 i
        rw [answers_books hnext] at hgrown
        obtain ⟨b, halike⟩ := h.step_of_agree ha (honoured_act hl.2.head hs)
          ((World.grew_alone (own i deeds) (t.step a).2).honoured ht) hcalls
          (hagree.shorten hgrown (World.grew_alone (own i deeds) (t.step a).2).answers)
        have hcalls' : (t.step a).2.machine.provider.requests =
            (s.step a).2.machine.provider.requests := by
          rw [halike.requests, halike.requests', hcalls]
        exact .act hs halike (ih hf' hv.2 hl.2 hnext halike.twins hcalls' ht hagree)
      | drop => exact .drop hs h hcalls hv.2
    · obtain ⟨s', hs', hg', hloans, hjournal⟩ := world?_next hf hv.1 hl.1 hl.2.head hi hs h.left
      rw [own_cons_other hi] at ht hagree
      have hcalls' : t.machine.provider.requests = s'.machine.provider.requests := by
        rw [hcalls]
        exact congrArg (fun notes => (notes.filter Note.isCall).map Note.taken) hjournal.symm
      exact .other hi (ih hf' hv.2 hl.2 hs' ⟨hg', h.right, h.loans.trans hloans.symm⟩ hcalls' ht
        hagree)

end Voyage

namespace World

variable {π : Type} [Platform π] {s : World π} {g : Ideal} {a : Action}

theorem Mirrors.id_step (hs : s.Mirrors g) (ha : s.Ready a)
    (hh : (s.step a).2.machine.Honoured) : (s.step a).2.heap.id = s.heap.id := by
  obtain ⟨g', hs', hm⟩ := hs.step_moves ha hh
  rw [hs.kept.represents.id, hs'.kept.represents.id, hm.id_eq]

/-- A block bears the name of the heap that it was taken from. -/
theorem Mirrors.owner_eq (hs : s.Mirrors g) (ha : s.Ready a)
    (hh : (s.step a).2.machine.Honoured) {b : Block} (hb : (s.step a).1.block? = some b) :
    b.owner = s.heap.id := by
  have hasks : ∃ size align, a.asks? = some (size, align) := by
    cases a with
    | alloc size align => exact ⟨_, _, rfl⟩
    | allocate layout zeroed => exact ⟨_, _, rfl⟩
    | _ => cases hb
  obtain ⟨size, align, hasks⟩ := hasks
  have hptr : (s.step a).1.ptr? = some b.ptr := by
    generalize (s.step a).1 = answer at hb
    cases answer with
    | block result =>
      cases result with
      | ok b' =>
        obtain rfl := Option.some.inj hb
        rfl
      | error failure => cases hb
    | _ => cases hb
  have hloans := loans_step hasks hptr
  have hs' := (hs.step_follows ha hh).mirrors
  have hl : ⟨b.ptr, size, align, s.chunkFor size align, some b⟩ ∈ (s.step a).2.loans := by
    rw [hloans, World.lend, hb]
    exact List.mem_cons_self
  rw [(hs'.block_eq hl rfl).2, hs.id_step ha hh]

end World

namespace Fleet

variable {σ ρ : Type} {f : Fleet σ ρ} {i : ℕ} {m : Member ρ}

theorem settle_self (hm : f.member? i = some m) :
    f.settle i (some m.heap) (f.machine m) = f := by
  have hget : f.members[i]? = some (some m) := by
    rw [member?, Option.join_eq_some_iff] at hm
    exact hm
  have hset : f.members.set i (some m) = f.members := by
    apply List.ext_getElem?
    intro j
    by_cases hj : i = j
    · rw [← hj, List.getElem?_set_self (lt_length hm), hget]
    · rw [List.getElem?_set_ne hj]
  exact congrArg (fun members => { f with members := members }) hset

/-- An operation that leaves heap and machine alone leaves the fleet alone. -/
theorem run_idle (hm : f.member? i = some m) {α : Type} {r : α}
    {op : Heap → Machine (σ × ρ) → α × Heap × Machine (σ × ρ)}
    (hop : op m.heap (f.machine m) = (r, m.heap, f.machine m)) : f.run i op = some (r, [], f) := by
  have hrun : f.run i op = some ((op m.heap (f.machine m)).1,
      (op m.heap (f.machine m)).2.2.journal, f.settle i (some (op m.heap (f.machine m)).2.1)
        (op m.heap (f.machine m)).2.2) := by
    rw [run, hm]
    rfl
  rw [hrun, hop, settle_self hm]
  rfl

variable [Platform (σ × ρ)]

/-- The member in place `i` does not take a block, and the fleet is as it was. -/
structure Repels (f : Fleet σ ρ) (i : ℕ) (b : Block) : Prop where
  deallocate : f.run i (fun h w => h.deallocate b w) =
    some (.error (.foreignBlock b.ptr), [], f)
  paddedSize : f.run i (fun h w => (h.paddedSize b w.memory, h, w)) =
    some (.error (.foreignBlock b.ptr), [], f)

theorem repels (hm : f.member? i = some m) {b : Block} (hb : b.owner ≠ m.heap.id) :
    f.Repels i b := by
  have howner : m.heap.checkOwner b = .error (.foreignBlock b.ptr) := if_neg hb
  constructor
  · apply run_idle hm
    rw [Heap.deallocate, howner]
  · apply run_idle hm
    rw [Heap.paddedSize, howner]
    rfl

/-- The voyage of a fleet that nobody has used. -/
def embark (f : Fleet σ ρ) : Voyage σ ρ := { fleet := f }

end Fleet

theorem IdSource.next_draw_add (ids : IdSource) (n : ℕ) :
    (ids.draw.2.next + n) % wordLimit = (ids.next + (n + 1)) % wordLimit := by
  show ((ids.next + 1) % wordLimit + n) % wordLimit = (ids.next + (n + 1)) % wordLimit
  rw [Nat.mod_add_mod, Nat.add_right_comm, Nat.add_assoc]

namespace Opening

variable {opening : Opening} {ids : IdSource} {id : ℕ} {h : Heap}

theorem fresh (hh : opening.heap id = .ok h) : h.Fresh ∧ h.id = id := by
  have hconfigured : ∀ config, Heap.ofConfig id config = .ok h → h.Fresh ∧ h.id = id :=
    fun config accepted => ⟨.configured accepted, congrArg Heap.id (Heap.eq_of_ofConfig accepted).1⟩
  cases opening with
  | plain =>
    obtain rfl := Except.ok.inj hh
    exact ⟨.plain id, rfl⟩
  | sized regionSize => exact hconfigured _ hh
  | ofVariable v => exact hconfigured _ hh

/-- An id is taken exactly by a heap that is not refused. -/
theorem setUp_cases (opening : Opening) (ids : IdSource) :
    (∃ why, opening.setUp ids = (.error why, ids)) ∨
    ∃ h : Heap, h.Fresh ∧ h.id = ids.next ∧ opening.setUp ids = (.ok h, ids.draw.2) := by
  rcases hh : opening.heap ids.next with why | h
  · exact Or.inl ⟨why, by simp only [setUp, IdSource.draw, hh]⟩
  · obtain ⟨hfresh, hid⟩ := fresh hh
    exact Or.inr ⟨h, hfresh, hid, by simp only [setUp, IdSource.draw, hh]⟩

end Opening

namespace Fleet

variable {σ ρ : Type} {ids : IdSource} {openings : List (Opening × ρ)} {m m' : Member ρ} {i j : ℕ}

/-- The first heap is refused and takes no id, or it takes the next one. -/
theorem openAll_cons (ids : IdSource) (x : Opening × ρ) (rest : List (Opening × ρ)) :
    (∃ why, (openAll ids (x :: rest)).1 = .error why :: (openAll ids rest).1) ∨
    ∃ m : Member ρ, m.heap.Fresh ∧ m.heap.id = ids.next ∧
      (openAll ids (x :: rest)).1 = .ok m :: (openAll ids.draw.2 rest).1 := by
  obtain ⟨opening, platform⟩ := x
  rw [openAll]
  rcases opening.setUp_cases ids with ⟨why, heq⟩ | ⟨h, hfresh, hid, heq⟩
  · rw [heq]
    exact Or.inl ⟨why, rfl⟩
  · rw [heq]
    exact Or.inr ⟨⟨h, platform⟩, hfresh, hid, rfl⟩

/-- A heap is fresh, and its id follows in the source no later than one for each
opening before it. -/
theorem id_of_openAll (hm : (openAll ids openings).1[i]? = some (.ok m)) :
    m.heap.Fresh ∧ ∃ n ≤ i, m.heap.id = (ids.next + n) % wordLimit := by
  induction openings generalizing ids i with
  | nil => cases hm
  | cons x rest ih =>
    rcases openAll_cons ids x rest with ⟨why, heq⟩ | ⟨first, hfresh, hid, heq⟩
    · rw [heq] at hm
      cases i with
      | zero => cases hm
      | succ i =>
        obtain ⟨hm', n, hn, hid⟩ := ih hm
        exact ⟨hm', n, Nat.le_succ_of_le hn, hid⟩
    · rw [heq] at hm
      cases i with
      | zero =>
        obtain rfl := Except.ok.inj (Option.some.inj hm)
        exact ⟨hfresh, 0, Nat.le_refl 0, hid.trans (Nat.mod_eq_of_lt ids.inWords).symm⟩
      | succ i =>
        obtain ⟨hm', n, hn, hid⟩ := ih hm
        exact ⟨hm', n + 1, Nat.succ_le_succ hn, hid.trans (ids.next_draw_add n)⟩

/-- The ids of two heaps are as far apart as there were heaps set up between them. -/
theorem id_later (hij : i < j) (hm : (openAll ids openings).1[i]? = some (.ok m))
    (hm' : (openAll ids openings).1[j]? = some (.ok m')) :
    ∃ d, 0 < d ∧ d ≤ j - i ∧ m'.heap.id = (m.heap.id + d) % wordLimit := by
  induction openings generalizing ids i j with
  | nil => cases hm
  | cons x rest ih =>
    obtain ⟨j, rfl⟩ := Nat.exists_eq_add_one_of_ne_zero (Nat.ne_of_gt (Nat.zero_lt_of_lt hij))
    cases i with
    | zero =>
      rcases openAll_cons ids x rest with ⟨why, heq⟩ | ⟨first, hfresh, hid, heq⟩
      · rw [heq] at hm
        cases hm
      · rw [heq] at hm hm'
        obtain rfl := Except.ok.inj (Option.some.inj hm)
        obtain ⟨-, n, hn, hid'⟩ := id_of_openAll hm'
        refine ⟨n + 1, Nat.succ_pos n, Nat.succ_le_succ hn, ?_⟩
        rw [hid, hid', ids.next_draw_add]
    | succ i =>
      -- whatever became of the first heap, both are among the rest
      rw [openAll] at hm hm'
      obtain ⟨d, hpos, hd, hid⟩ := ih (Nat.lt_of_succ_lt_succ hij) hm hm'
      exact ⟨d, hpos, by omega, hid⟩

/-- As the ids are words, two heaps have different ids unless the source went all
the way round between them. -/
theorem id_ne (hij : i < j) (hj : j < i + wordLimit)
    (hm : (openAll ids openings).1[i]? = some (.ok m))
    (hm' : (openAll ids openings).1[j]? = some (.ok m')) : m.heap.id ≠ m'.heap.id := by
  obtain ⟨d, hpos, hd, hid⟩ := id_later hij hm hm'
  obtain ⟨-, n, -, hword⟩ := id_of_openAll hm
  simp only [wordLimit] at hj hid hword
  omega

section Launch

variable {memory : Memory} {shared : σ}

theorem getElem?_openAll (hm : (launch memory shared ids openings).member? i = some m) :
    (openAll ids openings).1[i]? = some (.ok m) := by
  rw [member?, Option.join_eq_some_iff, launch, List.getElem?_map] at hm
  obtain ⟨result, hget, hok⟩ := Option.map_eq_some_iff.mp hm
  cases result with
  | error why => cases hok
  | ok m' =>
    obtain rfl := Option.some.inj hok
    exact hget

theorem fresh_launch (hm : (launch memory shared ids openings).member? i = some m) :
    m.heap.Fresh :=
  (id_of_openAll (getElem?_openAll hm)).1

theorem eq_of_id_eq (hi : i < j + wordLimit) (hj : j < i + wordLimit)
    (hm : (launch memory shared ids openings).member? i = some m)
    (hm' : (launch memory shared ids openings).member? j = some m')
    (hid : m.heap.id = m'.heap.id) : i = j := by
  rcases Nat.lt_trichotomy i j with hlt | heq | hlt
  · exact absurd hid (id_ne hlt hj (getElem?_openAll hm) (getElem?_openAll hm'))
  · exact heq
  · exact absurd hid.symm (id_ne hlt hi (getElem?_openAll hm') (getElem?_openAll hm))

end Launch

end Fleet

namespace Voyage

variable {σ ρ : Type} [Platform (σ × ρ)] {f : Fleet σ ρ} {v : Voyage σ ρ} {i j : ℕ}
  {m : Member ρ} {x : ℕ × Deed} {deeds : List (ℕ × Deed)}

omit [Platform (σ × ρ)] in
theorem world?_embark (hm : f.member? i = some m) :
    f.embark.world? i = some (.start m.heap (f.machine m)) := by
  rw [world?, Fleet.embark, hm]
  rfl

omit [Platform (σ × ρ)] in
theorem afloat_embark (hf : ∀ i m, f.member? i = some m → m.heap.Fresh) : f.embark.Afloat := by
  intro i s hs
  obtain ⟨m, hm, rfl⟩ := exists_member hs
  exact ⟨_, (hf i m hm).mirrors (f.machine m)⟩

/-- A member keeps its name. -/
theorem id_next (hf : v.Afloat) (hx : v.Ready x) (hl' : (v.next x).Lawful)
    (hm : (v.next x).fleet.member? j = some m) :
    ∃ m', v.fleet.member? j = some m' ∧ m'.heap.id = m.heap.id := by
  by_cases hj : j = x.1
  · obtain ⟨k, d⟩ := x
    obtain rfl : j = k := hj
    cases d with
    | act a =>
      obtain ⟨s, hs, ha⟩ := hx
      obtain ⟨g, hg⟩ := hf j s hs
      have hid := hg.id_step ha (honoured_act hl' hs)
      obtain ⟨m', hm', -⟩ := exists_member hs
      refine ⟨m', hm', ?_⟩
      rw [next_act hs, leave, Fleet.member?_settle_self (Fleet.lt_length hm')] at hm
      obtain rfl := Option.some.inj hm
      rw [hid]
      obtain ⟨m'', hm'', rfl⟩ := exists_member hs
      obtain rfl := Option.some.inj (hm'.symm.trans hm'')
      rfl
    | drop =>
      obtain ⟨s, hs⟩ := Option.isSome_iff_exists.mp hx
      obtain ⟨m', hm', -⟩ := exists_member hs
      rw [next_drop hs, leave, Fleet.member?_settle_self (Fleet.lt_length hm')] at hm
      cases hm
  · obtain ⟨s, heap, w, b, -, heq⟩ := next_eq hx
    rw [heq, leave, Fleet.member?_settle_other hj] at hm
    exact ⟨m, hm, rfl⟩

theorem run_invariant (hf : v.Afloat) (hv : Valid deeds v) (hl : LawfulOn deeds v) :
    (after deeds v).Afloat ∧ (after deeds v).Lawful ∧
    (after deeds v).fleet.members.length = v.fleet.members.length ∧
    ∀ j m, (after deeds v).fleet.member? j = some m →
      ∃ m', v.fleet.member? j = some m' ∧ m'.heap.id = m.heap.id := by
  induction deeds generalizing v with
  | nil => exact ⟨hf, hl, rfl, fun j m hm => ⟨m, hm, rfl⟩⟩
  | cons x deeds ih =>
    obtain ⟨hafloat, hlawful, hlength, hids⟩ :=
      ih (afloat_next hf hv.1 hl.1 hl.2.head) hv.2 hl.2
    refine ⟨hafloat, hlawful, hlength.trans (length_next hv.1), fun j m hm => ?_⟩
    obtain ⟨m', hm', hid⟩ := hids j m hm
    obtain ⟨m'', hm'', hid'⟩ := id_next hf hv.1 hl.2.head hm'
    exact ⟨m'', hm'', hid'.trans hid⟩

/-- Every block bears the name of the member that it was taken from. -/
theorem owner_of_trace (hf : v.Afloat) (hv : Valid deeds v) (hl : LawfulOn deeds v)
    {answer : Answer} {figures : Stats} (ht : (j, answer, figures) ∈ trace deeds v) {b : Block}
    (hb : answer.block? = some b) : ∃ m, v.fleet.member? j = some m ∧ b.owner = m.heap.id := by
  induction deeds generalizing v with
  | nil => cases ht
  | cons x deeds ih =>
    rcases List.mem_append.mp ht with hfirst | hrest
    · obtain ⟨k, d⟩ := x
      obtain ⟨said, hsaid, heq⟩ := List.mem_map.mp hfirst
      obtain ⟨rfl, rfl⟩ := Prod.mk.inj heq
      cases d with
      | act a =>
        obtain ⟨s, hs, ha⟩ := hv.1
        obtain ⟨g, hg⟩ := hf k s hs
        rw [Voyage.said, act_eq hs] at hsaid
        obtain ⟨rfl, -⟩ : answer = (s.step a).1 ∧ figures = (s.step a).2.heap.stats := by
          simpa using hsaid
        have howner := hg.owner_eq ha (honoured_act hl.2.head hs) hb
        obtain ⟨m, hm, rfl⟩ := exists_member hs
        exact ⟨m, hm, howner⟩
      | drop => cases hsaid
    · obtain ⟨m, hm, howner⟩ := ih (afloat_next hf hv.1 hl.1 hl.2.head) hv.2 hl.2 hrest
      obtain ⟨m', hm', hid⟩ := id_next hf hv.1 hl.2.head hm
      exact ⟨m', hm', howner.trans hid.symm⟩

/-- Heaps set up over one memory, as many as there may be, work as if each were
alone, and none takes a block of another. Ids are words, so the last leaves out
two heaps between which the source of ids went all the way round, which takes as
many heaps as there are words. -/
theorem heaps_independent {memory : Memory} {shared : σ} {ids : IdSource}
    {openings : List (Opening × ρ)} (hf : f = Fleet.launch memory shared ids openings)
    (hv : Valid deeds f.embark) (hl : LawfulOn deeds f.embark) :
    (∀ x, (after deeds f.embark).Ready x → ((after deeds f.embark).next x).Lawful →
      ∀ j < f.members.length, j ≠ x.1 →
        Spares (after deeds f.embark) ((after deeds f.embark).next x) j) ∧
    (∀ i m, f.member? i = some m → ∀ {τ : Type} [Platform τ] (w : Machine τ),
      (World.alone (own i deeds) (.start m.heap w)).Honoured →
      Agree Eq ((after deeds f.embark).books i).provider.answers
        (World.alone (own i deeds) (.start m.heap w)).provider.answers →
      Undisturbed i deeds f.embark (.start m.heap w)) ∧
    ∀ j answer figures b, (j, answer, figures) ∈ trace deeds f.embark →
      answer.block? = some b → ∀ i m, i ≠ j → i < j + wordLimit → j < i + wordLimit →
        (after deeds f.embark).fleet.member? i = some m →
        (after deeds f.embark).fleet.Repels i b := by
  subst hf
  have hafloat : (Fleet.launch memory shared ids openings).embark.Afloat :=
    afloat_embark fun i m hm => Fleet.fresh_launch hm
  obtain ⟨hafter, hlawful, hlength, hids⟩ := run_invariant hafloat hv hl
  refine ⟨?_, ?_, ?_⟩
  · intro x hx hl' j hlen hj
    exact spares_next hafter hx hlawful hl' hj (hlength ▸ hlen)
  · intro i m hm τ _ w hw hagree
    have hfresh := Fleet.fresh_launch hm
    exact undisturbed hafloat hv hl (world?_embark hm)
      ⟨hfresh.mirrors _, hfresh.mirrors w, rfl⟩ rfl hw hagree
  · intro j answer figures b ht hb i m hij hi hj hm
    obtain ⟨m', hm', howner⟩ := owner_of_trace hafloat hv hl ht hb
    obtain ⟨m'', hm'', hid⟩ := hids i m hm
    apply Fleet.repels hm
    intro heq
    exact hij (Fleet.eq_of_id_eq hi hj hm'' hm' (by rw [hid, ← heq, howner]))

/-- Two heaps on one arena, set up with a third one between them that is refused
and takes no id. The second has small regions, and its ranges start off the page. -/
def pair : Fleet Script.Host Tenant :=
  .launch .zero (.arena {}) .initial
    [(.plain, {}), (.sized 0x100004, {}), (.sized 0x100000, { terms := { skew := [0, 0, 8] } })]

/-- Both heaps in turns, until the second ends. -/
def crossing : List (ℕ × Deed) :=
  [(0, .act (.allocate World.sheet false)), (0, .act (.alloc 2000000 64)),
    (2, .act (.alloc 16 8)), (2, .act (.allocate ⟨24, 8, by decide, by decide⟩ true)),
    (0, .act (.write 0x100000000010 [1, 2, 3])), (2, .act (.free 0x1000005E9010)),
    (0, .act (.free 0x100000400040)), (2, .act (.alloc 9 8)), (0, .act (.alloc 30 8)), (2, .drop),
    (0, .act (.deallocate ⟨0x100000000010, 100, .pooled .small, 1⟩))]

theorem heaps_independent_crossing :
    Valid crossing pair.embark ∧
    Spares (after (crossing.take 8) pair.embark)
      ((after (crossing.take 8) pair.embark).next (0, .act (.alloc 1000000 8))) 2 ∧
    Undisturbed 0 crossing pair.embark (.start (.empty 1 defaultRegionSize)
      { memory := .zero, platform := (({} : Arena), ({} : Tenant)) }) ∧
    (after crossing pair.embark).fleet.Repels 0 ⟨0x1000005E9030, 24, .pooled .small, 2⟩ := by
  have hv : Valid crossing pair.embark := by decide +kernel
  have hl : LawfulOn crossing pair.embark := by decide +kernel
  -- naming the facts about whole runs would evaluate these in the elaborator
  obtain ⟨-, halone, hrepels⟩ := heaps_independent (f := pair) rfl hv ‹_›
  have hv₈ : Valid (crossing.take 8) pair.embark := by decide +kernel
  have hl₈ : LawfulOn (crossing.take 8) pair.embark := by decide +kernel
  obtain ⟨hspares, -, -⟩ := heaps_independent (f := pair) rfl hv₈ ‹_›
  have hready : (after (crossing.take 8) pair.embark).Ready (0, .act (.alloc 1000000 8)) := by
    decide +kernel
  have hnext : ((after (crossing.take 8) pair.embark).next
      (0, .act (.alloc 1000000 8))).Lawful := by decide +kernel
  have hhonoured : (World.alone (own 0 crossing) (.start (.empty 1 defaultRegionSize)
      { memory := .zero, platform := (({} : Arena), ({} : Tenant)) })).Honoured := by
    decide +kernel
  have hanswers : ((after crossing pair.embark).books 0).provider.answers =
      (World.alone (own 0 crossing) (.start (.empty 1 defaultRegionSize)
        { memory := .zero, platform := (({} : Arena), ({} : Tenant)) })).provider.answers := by
    decide +kernel
  have hblock : (trace crossing pair.embark)[3]?.map (fun x => (x.1, x.2.1.block?)) =
      some (2, some ⟨0x1000005E9030, 24, .pooled .small, 2⟩) := by decide +kernel
  obtain ⟨⟨j, answer, figures⟩, hget, heq⟩ := Option.map_eq_some_iff.mp hblock
  obtain ⟨rfl, hb⟩ := Prod.mk.inj heq
  have hpresent : ((after crossing pair.embark).fleet.member? 0).isSome := by decide +kernel
  obtain ⟨m, hm⟩ := Option.isSome_iff_exists.mp hpresent
  have hfirst : pair.member? 0 = some ⟨.empty 1 defaultRegionSize, { terms := {} }⟩ := rfl
  refine ⟨hv, hspares _ ‹_› ‹_› 2 (by decide) (by decide), ?_, ?_⟩
  · exact halone 0 _ hfirst _ ‹_› (Agree.of_eq ‹_›)
  · exact hrepels 2 answer figures _ (List.mem_of_getElem? hget) hb 0 m (by decide) (by decide)
      (by decide) hm

end Voyage

end ChunkHeap
