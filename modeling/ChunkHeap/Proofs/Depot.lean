import Mathlib
import ChunkHeap.Proofs.Buckets
import ChunkHeap.Proofs.Carving
import ChunkHeap.Proofs.Headers

/-!
# A table and its source

One table takes its chunks from one source. Users may ask either of them. What
they hold they may write to, and put into the table under any padded size. So a
bucket may hold chunks that are smaller than it says, but every chunk has room
for its link and is in one place.
-/

set_option autoImplicit false

namespace ChunkHeap

namespace BucketTable

/-- A request that the table cannot pad, or whose bucket is empty while no region
has room for the padded size. -/
def Rejects (t : BucketTable) (r : RegionSource) (size : ℕ) : Prop :=
  t.Unfit size ∨ (t.heads[Word.ceil size t.unit / t.unit - 1]? = some none ∧
    r.regionSize < Word.ceil size t.unit)

variable {π : Type} [Platform π] {t : BucketTable} {r : RegionSource} {size : ℕ} {w : Machine π}

/-- The ways in which a table deals with a request. -/
inductive Takes (t : BucketTable) (r : RegionSource) (size : ℕ) (w : Machine π) :
    Except Failure ℕ × BucketTable × RegionSource × Machine π → Prop
  | rejected {w' : Machine π} (fault : Fault) (rejects : t.Rejects r size)
      (calm : w' = w ∨ ∃ e, w' = w.report e) : Takes t r size w (.error (.fault fault), t, r, w')
  | reused {i : Fin bucketCount} {chunk : ℕ} (accepts : ¬ t.Rejects r size)
      (top : t.heads.get i = some chunk) :
      Takes t r size w (.ok chunk,
        { t with
          heads := t.heads.set i.val (Chunk.next? w.memory chunk) i.isLt
          count := t.count - 1 }, r,
        { w with memory := Chunk.setSize w.memory chunk (Word.ceil size t.unit) })
  | refused {why : Refusal} {r' : RegionSource} {w' : Machine π} (accepts : ¬ t.Rejects r size)
      (bound : Word.ceil size t.unit ≤ r.regionSize)
      (carve : r.carve (Word.ceil size t.unit)
        (w.report (.bucketEmpty (Word.ceil size t.unit) t.unit)) =
          (.error (.refused why), r', w')) :
      Takes t r size w (.error (.refused why), t, r', w')
  | fresh {chunk : ℕ} {r' : RegionSource} {w' : Machine π} (accepts : ¬ t.Rejects r size)
      (bound : Word.ceil size t.unit ≤ r.regionSize) (pos : t.unit ≤ Word.ceil size t.unit)
      (carve : r.carve (Word.ceil size t.unit)
        (w.report (.bucketEmpty (Word.ceil size t.unit) t.unit)) = (.ok chunk, r', w')) :
      Takes t r size w (.ok chunk, t, r',
        { w' with memory := Chunk.setSize w'.memory chunk (Word.ceil size t.unit) })

theorem takes {k : ℕ} (hu : t.unit = 2 ^ k)
    (hcount : ∀ i chunk, t.heads.get i = some chunk → 1 ≤ t.count)
    (hc : r.cursor ≤ r.regionSize) (hb : r.bases ≠ [] → r.regionSize < layoutLimit) :
    t.Takes r size w (t.take size r w) := by
  have hpos : 0 < t.unit := hu ▸ Nat.two_pow_pos k
  rcases fit_cases hu size with ⟨hunfit, fault, hfit⟩ | ⟨hfits, i, hi, hfit⟩
  · rw [take, hfit]
    exact .rejected fault (Or.inl hunfit) (Or.inl rfl)
  · have hindex : t.heads[Word.ceil size t.unit / t.unit - 1]? = some (t.heads.get i) := by
      rw [hi, Nat.mul_div_cancel_left _ hpos, Nat.add_sub_cancel, Vector.get_eq_getElem]
      exact Vector.getElem?_eq_getElem i.isLt
    simp only [take, hfit, obtain]
    cases hhead : t.heads.get i with
    | some chunk =>
      have haccepts : ¬ t.Rejects r size := by
        rintro (h | ⟨h, -⟩)
        · exact hfits h
        · rw [hindex, hhead] at h
          simp at h
      simp only [pop, Word.sub_eq_ok (hcount i chunk hhead), Except.mapError]
      exact .reused haccepts hhead
    | none =>
      rw [hhead] at hindex
      by_cases hbound : Word.ceil size t.unit ≤ r.regionSize
      · have haccepts : ¬ t.Rejects r size := by
          rintro (h | ⟨-, h⟩)
          · exact hfits h
          · omega
        have hcarves : r.Carves (Word.ceil size t.unit)
            (w.report (.bucketEmpty (Word.ceil size t.unit) t.unit)) _ :=
          RegionSource.carves hbound hc hb
        have hle : t.unit ≤ Word.ceil size t.unit := by
          rw [hi]
          exact Nat.le_mul_of_pos_right _ (Nat.succ_pos _)
        cases hx : r.carve (Word.ceil size t.unit)
            (w.report (.bucketEmpty (Word.ceil size t.unit) t.unit)) with
        | mk answer rest =>
          rw [hx] at hcarves
          cases hcarves with
          | room current fits => exact .fresh haccepts hbound hle hx
          | refused full asked => exact .refused haccepts hbound hx
          | granted full asked => exact .fresh haccepts hbound hle hx
      · have hcarve : r.carve (Word.ceil size t.unit)
            (w.report (.bucketEmpty (Word.ceil size t.unit) t.unit)) = _ :=
          if_pos (Nat.lt_of_not_le hbound)
        rw [hcarve]
        exact .rejected _ (Or.inr ⟨hindex, Nat.lt_of_not_le hbound⟩) (Or.inr ⟨_, rfl⟩)

end BucketTable

namespace Quarry

variable {π : Type} {q : Quarry π} {R size : ℕ}

def withMemory (q : Quarry π) (m : Memory) : Quarry π :=
  { q with machine := { q.machine with memory := m } }

def report (q : Quarry π) (e : Event) : Quarry π := { q with machine := q.machine.report e }

/-- A piece was carved if the source has changed. -/
def settle (q : Quarry π) (source : RegionSource) (machine : Machine π) (piece : Span) :
    Quarry π where
  source := source
  machine := machine
  lots := if source = q.source then q.lots
    else if source.bases.length = q.source.bases.length then q.lots.modifyHead (piece :: ·)
    else [piece] :: q.lots

theorem Laid.withMemory (h : q.Laid R) (m : Memory) : (q.withMemory m).Laid R :=
  ⟨h.size, h.held, h.below, h.apart, h.lots⟩

theorem Laid.report (h : q.Laid R) (e : Event) : (q.report e).Laid R :=
  ⟨h.size, (q.machine.held_report e).trans h.held, h.below, h.apart, h.lots⟩

variable [Platform π]

/-- A piece that is not empty cannot be carved without a change of the source. -/
theorem Laid.settle_carve (h : q.Laid R) (hs : size ≤ R) (h0 : 0 < size) {chunk : ℕ}
    {source : RegionSource} {machine : Machine π}
    (hx : q.source.carve size q.machine = (.ok chunk, source, machine)) :
    q.step (.carve size) = (some (.ok chunk), q.settle source machine ⟨chunk, size⟩) := by
  have hne : source ≠ q.source := by
    have hcarves := h.carves hs
    rw [hx] at hcarves
    intro heq
    cases hcarves with
    | room current fits =>
      have hcursor : q.source.cursor + size = q.source.cursor := congrArg RegionSource.cursor heq
      omega
    | granted full asked =>
      have hbases : chunk :: q.source.bases = q.source.bases := congrArg RegionSource.bases heq
      simp at hbases
  simp only [step, hx, settle, if_neg hne]

end Quarry

/-- What users of a table and of its source may do. -/
inductive Trade where
  | take (size : ℕ)
  | put (padded chunk : ℕ)
  | carve (size : ℕ)
  | write (addr : ℕ) (bytes : List UInt8)
  /-- A new table comes in the place of the old one, whose chunks are lost. -/
  | renew
  | releaseAll

/-- A table and the source of its chunks, with the chunks in the hands of users.
A piece of the source that has no room for a header is no chunk. -/
structure Depot (π : Type) where
  table : BucketTable
  yard : Quarry π
  out : List ℕ := []

namespace Depot

variable {π : Type}

def start (unit regionSize : ℕ) (w : Machine π) : Depot π where
  table := { unit }
  yard := .start regionSize w

/-- Users put back what they hold and write to what they hold. All regions are
released only when the table is empty. -/
def Ready (d : Depot π) : Trade → Prop
  | .put _ chunk => chunk ∈ d.out
  | .write addr bytes => ∃ p ∈ d.yard.lots.flatten, Span.Within ⟨addr, bytes.length⟩ p ∧
      (Chunk.headerSize ≤ p.len → p.start ∈ d.out)
  | .releaseAll => d.table.count = 0
  | .take _ | .carve _ | .renew => True

instance (d : Depot π) : (t : Trade) → Decidable (d.Ready t)
  | .put _ _ => inferInstanceAs (Decidable (_ ∈ _))
  | .write _ _ => inferInstanceAs (Decidable (∃ _ ∈ _, _ ∧ (_ → _)))
  | .releaseAll => inferInstanceAs (Decidable (_ = _))
  | .take _ => inferInstanceAs (Decidable True)
  | .carve _ => inferInstanceAs (Decidable True)
  | .renew => inferInstanceAs (Decidable True)

variable [Platform π]

/-- A call that ends in a fault leaves what it has changed until then. -/
def step (d : Depot π) : Trade → Depot π
  | .take size =>
      match d.table.take size d.yard.source d.yard.machine with
      | (.error _, table, source, machine) =>
          { d with table, yard := { d.yard with source, machine } }
      | (.ok chunk, table, source, machine) => {
          table
          yard := d.yard.settle source machine ⟨chunk, Word.ceil size d.table.unit⟩
          out := chunk :: d.out }
  | .put padded chunk =>
      match d.table.put padded chunk d.yard.machine.memory with
      | (.error _, table, memory) => { d with table, yard := d.yard.withMemory memory }
      | (.ok (), table, memory) =>
          { table, yard := d.yard.withMemory memory, out := d.out.erase chunk }
  | .carve size =>
      match d.yard.step (.carve size) with
      | (some (.ok chunk), yard) =>
          { d with yard, out := if Chunk.headerSize ≤ size then chunk :: d.out else d.out }
      | (_, yard) => { d with yard }
  | .write addr bytes =>
      { d with yard := d.yard.withMemory (d.yard.machine.memory.write addr bytes) }
  | .renew => { d with table := { unit := d.table.unit } }
  | .releaseAll => { table := d.table, yard := (d.yard.step .releaseAll).2 }

def after : List Trade → Depot π → Depot π
  | [], d => d
  | t :: ts, d => after ts (d.step t)

def Valid : List Trade → Depot π → Prop
  | [], _ => True
  | t :: ts, d => d.Ready t ∧ Valid ts (d.step t)

instance decidableValid : (ts : List Trade) → (d : Depot π) → Decidable (Valid ts d)
  | [], _ => inferInstanceAs (Decidable True)
  | t :: ts, d =>
      have := decidableValid ts (d.step t)
      inferInstanceAs (Decidable (_ ∧ _))

theorem calls_step (d : Depot π) (t : Trade) :
    d.yard.machine.provider.calls <+: (d.step t).yard.machine.provider.calls := by
  cases t with
  | take size =>
    have hgrew := (d.table.grew_take size d.yard.source d.yard.machine).filter Note.isCall
    simp only [step]
    split
    · next hx => rwa [hx] at hgrew
    · next hx => rwa [hx] at hgrew
  | put padded chunk =>
    simp only [step]
    split
    · exact List.prefix_refl _
    · exact List.prefix_refl _
  | carve size =>
    have hcalls := d.yard.calls_step (.carve size)
    simp only [step]
    split
    · next hx => rwa [hx] at hcalls
    · next hx => rwa [hx] at hcalls
  | write addr bytes => exact List.prefix_refl _
  | renew => exact List.prefix_refl _
  | releaseAll => exact d.yard.calls_step .releaseAll

theorem calls_after (ts : List Trade) (d : Depot π) :
    d.yard.machine.provider.calls <+: (after ts d).yard.machine.provider.calls := by
  induction ts generalizing d with
  | nil => exact List.prefix_refl _
  | cons t ts ih => exact (d.calls_step t).trans (ih _)

end Depot

/-- The chunks on the lists of all buckets. -/
def shelved (lists : Fin bucketCount → List ℕ) : List ℕ := (List.finRange bucketCount).flatMap lists

section

variable {lists : Fin bucketCount → List ℕ} {i : Fin bucketCount} {chunk : ℕ}

theorem mem_shelved : chunk ∈ shelved lists ↔ ∃ i, chunk ∈ lists i := by
  simp [shelved]

theorem shelved_eq_nil : shelved lists = [] ↔ ∀ i, lists i = [] := by
  simp [shelved, List.flatMap_eq_nil_iff]

@[simp] theorem shelved_nil : shelved (fun _ => []) = [] := shelved_eq_nil.mpr fun _ => rfl

theorem shelved_pop {rest : List ℕ} (h : lists i = chunk :: rest) :
    (shelved lists).Perm (chunk :: shelved (Function.update lists i rest)) := by
  apply flatMap_perm_cons (List.nodup_finRange _) (List.mem_finRange i)
  · rw [h, Function.update_self]
  · intro j hj
    rw [Function.update_of_ne hj]

theorem shelved_push (lists : Fin bucketCount → List ℕ) (i : Fin bucketCount) (chunk : ℕ) :
    (shelved (Function.update lists i (chunk :: lists i))).Perm (chunk :: shelved lists) := by
  have h := shelved_pop (Function.update_self i (chunk :: lists i) lists)
  rwa [Function.update_idem, Function.update_eq_self] at h

end

namespace Depot

variable {π : Type}

/-- What the trade keeps: each list is what the links of its bucket lead through,
and every chunk that is out or on a list is a piece with room for a header, and in
one place only. -/
structure Stocked (d : Depot π) (k R : ℕ) (lists : Fin bucketCount → List ℕ) : Prop where
  unit : d.table.unit = 2 ^ k
  laid : d.yard.Laid R
  chains : ∀ i, Chunk.Chain d.yard.machine.memory (d.table.heads.get i) (lists i)
  count : d.table.count = (shelved lists).length
  once : (d.out ++ shelved lists).Nodup
  pieces : ∀ x ∈ d.out ++ shelved lists, ∃ p ∈ d.yard.lots.flatten,
    p.start = x ∧ Chunk.headerSize ≤ p.len

namespace Stocked

variable {d : Depot π} {k R : ℕ} {lists : Fin bucketCount → List ℕ}

theorem start (k R : ℕ) (w : Machine π) : (start (2 ^ k) R w).Stocked k R fun _ => [] where
  unit := rfl
  laid := Quarry.laid_start R w
  chains := by
    intro i
    rw [Chunk.Chain.nil_iff]
    simp [Depot.start, Vector.get_eq_getElem]
  count := by simp [Depot.start]
  once := by simp [Depot.start]
  pieces := by simp [Depot.start]

theorem not_shelved (h : d.Stocked k R lists) {x : ℕ} (hout : x ∈ d.out) : x ∉ shelved lists :=
  fun hmem => (List.nodup_append.mp h.once).2.2 x hout x hmem rfl

theorem piece_shelved (h : d.Stocked k R lists) {x : ℕ} (hx : x ∈ shelved lists) :
    ∃ p ∈ d.yard.lots.flatten, p.start = x ∧ Chunk.headerSize ≤ p.len :=
  h.pieces x (List.mem_append_right _ hx)

theorem head_shelved (h : d.Stocked k R lists) {i : Fin bucketCount} {x : ℕ}
    (hhead : d.table.heads.get i = some x) : x ∈ shelved lists := by
  have hlist := (h.chains i).head_eq
  rw [hhead] at hlist
  exact mem_shelved.mpr ⟨i, List.mem_of_mem_head? hlist.symm⟩

/-- The yard may change as long as pieces and their bytes stay. -/
theorem congr (h : d.Stocked k R lists) {yard : Quarry π} (hl : yard.Laid R)
    (hsub : ∀ p ∈ d.yard.lots.flatten, p ∈ yard.lots.flatten)
    (hm : ∀ p ∈ d.yard.lots.flatten, d.yard.machine.memory.AgreesOn yard.machine.memory p) :
    Stocked { d with yard } k R lists where
  unit := h.unit
  laid := hl
  chains := by
    intro i
    apply (h.chains i).congr
    intro x hx
    obtain ⟨p, hp, rfl, hlen⟩ := h.piece_shelved (mem_shelved.mpr ⟨i, hx⟩)
    exact (hm p hp).mono (Span.front_within hlen)
  count := h.count
  once := h.once
  pieces := by
    intro x hx
    obtain ⟨p, hp, hstart, hlen⟩ := h.pieces x hx
    exact ⟨p, hsub p hp, hstart, hlen⟩

/-- A piece that is on no list may be written to. -/
theorem touch (h : d.Stocked k R lists) {p : Span} (hp : p ∈ d.yard.lots.flatten)
    (hfree : Chunk.headerSize ≤ p.len → p.start ∉ shelved lists) {m : Memory}
    (hm : d.yard.machine.memory.AgreesOff m p) :
    Stocked { d with yard := d.yard.withMemory m } k R lists where
  unit := h.unit
  laid := h.laid.withMemory m
  chains := by
    intro i
    apply (h.chains i).congr
    intro x hx
    have hshelved := mem_shelved.mpr ⟨i, hx⟩
    obtain ⟨q, hq, rfl, hlen⟩ := h.piece_shelved hshelved
    rcases h.laid.piece_eq_or_disjoint hq hp with rfl | hd
    · exact absurd hshelved (hfree hlen)
    · exact hm.on (hd.mono (Span.front_within hlen) (Span.Within.refl p))
  count := h.count
  once := h.once
  pieces := h.pieces

/-- A chunk that is new to the table and its users is handed out. -/
theorem hand (h : d.Stocked k R lists) {p : Span} (hp : p ∈ d.yard.lots.flatten)
    (hlen : Chunk.headerSize ≤ p.len) (hnew : p.start ∉ d.out ++ shelved lists) :
    Stocked { d with out := p.start :: d.out } k R lists where
  unit := h.unit
  laid := h.laid
  chains := h.chains
  count := h.count
  once := List.nodup_cons.mpr ⟨hnew, h.once⟩
  pieces := List.forall_mem_cons.mpr ⟨⟨p, hp, rfl, hlen⟩, h.pieces⟩

/-- The first chunk of a list is handed out with its link still in it. -/
theorem pop (h : d.Stocked k R lists) {i : Fin bucketCount} {chunk : ℕ} {rest : List ℕ}
    (hi : lists i = chunk :: rest) :
    Stocked { d with
      table := { d.table with
        heads := d.table.heads.set i.val (Chunk.next? d.yard.machine.memory chunk) i.isLt
        count := d.table.count - 1 }
      out := chunk :: d.out } k R (Function.update lists i rest) := by
  have hperm : (d.out ++ shelved lists).Perm
      (chunk :: d.out ++ shelved (Function.update lists i rest)) :=
    ((shelved_pop hi).append_left d.out).trans List.perm_middle
  have hchain := h.chains i
  rw [hi, Chunk.Chain.cons_iff] at hchain
  refine ⟨h.unit, h.laid, fun j => ?_, ?_, hperm.nodup_iff.mp h.once, fun x hx => ?_⟩
  · simp only [heads_get_set]
    by_cases hj : j = i
    · subst hj
      rw [if_pos rfl, Function.update_self]
      exact hchain.2
    · rw [if_neg hj, Function.update_of_ne hj]
      exact h.chains j
  · simp only [h.count, (shelved_pop hi).length_eq, List.length_cons, Nat.add_sub_cancel]
  · exact h.pieces x (hperm.mem_iff.mpr hx)

/-- The first chunk of a list has an address that a link can hold. -/
theorem head_lt (h : d.Stocked k R lists) (i : Fin bucketCount) :
    ∀ x ∈ d.table.heads.get i, 0 < x ∧ x < 256 ^ 8 := by
  intro x hx
  obtain ⟨p, hp, rfl, hlen⟩ := h.piece_shelved (h.head_shelved hx)
  obtain ⟨base, -, hpos, hbelow, hin⟩ := h.laid.piece_region hp
  have hlimit : layoutLimit < 256 ^ 8 := by decide
  simp only [Span.Within, Span.stop] at hin
  omega

/-- A chunk that is out goes in front of any list, whatever size it has. -/
theorem push (h : d.Stocked k R lists) (i : Fin bucketCount) {chunk : ℕ} (hout : chunk ∈ d.out) :
    Stocked {
      table := { d.table with
        heads := d.table.heads.set i.val (some chunk) i.isLt
        count := d.table.count + 1 }
      yard := d.yard.withMemory
        (Chunk.setNext d.yard.machine.memory chunk (d.table.heads.get i))
      out := d.out.erase chunk } k R (Function.update lists i (chunk :: lists i)) := by
  obtain ⟨p, hp, rfl, hlen⟩ := h.pieces chunk (List.mem_append_left _ hout)
  have hoff : d.yard.machine.memory.AgreesOff
      (Chunk.setNext d.yard.machine.memory p.start (d.table.heads.get i)) p :=
    Memory.agreesOff_store _ (Span.front_within hlen)
  -- the link is written while the chunk is still out, so no list is disturbed
  have hlinked := h.touch hp (fun _ => h.not_shelved hout) hoff
  have hperm : (d.out ++ shelved lists).Perm
      (d.out.erase p.start ++ shelved (Function.update lists i (p.start :: lists i))) := by
    have hsplit := (List.perm_cons_erase hout).append_right (shelved lists)
    exact hsplit.trans (((shelved_push lists i p.start).append_left _).trans
      List.perm_middle).symm
  refine ⟨h.unit, hlinked.laid, fun j => ?_, ?_, hperm.nodup_iff.mp h.once, fun x hx => ?_⟩
  · simp only [heads_get_set]
    by_cases hj : j = i
    · subst hj
      rw [if_pos rfl, Function.update_self]
      apply Chunk.Chain.cons
      change Chunk.Chain _ (Chunk.next? (Chunk.setNext _ _ _) p.start) _
      rw [Chunk.next?_setNext (h.head_lt j)]
      exact hlinked.chains j
    · rw [if_neg hj, Function.update_of_ne hj]
      exact hlinked.chains j
  · simp only [h.count, (shelved_push lists i p.start).length_eq, List.length_cons]
  · exact h.pieces x (hperm.mem_iff.mpr hx)

theorem renew (h : d.Stocked k R lists) :
    Stocked { d with table := { unit := d.table.unit } } k R fun _ => [] where
  unit := h.unit
  laid := h.laid
  chains := by
    intro i
    rw [Chunk.Chain.nil_iff]
    simp [Vector.get_eq_getElem]
  count := by simp
  once := by
    rw [shelved_nil, List.append_nil]
    exact (List.nodup_append.mp h.once).1
  pieces := by
    intro x hx
    rw [shelved_nil, List.append_nil] at hx
    exact h.pieces x (List.mem_append_left _ hx)

theorem count_pos (h : d.Stocked k R lists) {i : Fin bucketCount} {chunk : ℕ}
    (hhead : d.table.heads.get i = some chunk) : 1 ≤ d.table.count := by
  rw [h.count]
  exact List.length_pos_of_mem (h.head_shelved hhead)

theorem size_written (h : d.Stocked k R lists) {chunk : ℕ} (hout : chunk ∈ d.out) (n : ℕ) :
    Stocked { d with
      yard := d.yard.withMemory (Chunk.setSize d.yard.machine.memory chunk n) } k R lists := by
  obtain ⟨p, hp, rfl, hlen⟩ := h.pieces chunk (List.mem_append_left _ hout)
  have hfour : 4 ≤ p.len := (by decide : 4 ≤ Chunk.headerSize).trans hlen
  apply h.touch hp (fun _ => h.not_shelved hout)
  exact Memory.agreesOff_store _ (Span.front_within hfour)

variable [Platform π] {size : ℕ}

theorem releaseAll (h : d.Stocked k R lists) (hnone : d.table.count = 0) :
    (d.step .releaseAll).Stocked k R lists := by
  have hempty : shelved lists = [] := by
    rw [← List.length_eq_zero_iff, ← h.count, hnone]
  refine ⟨h.unit, h.laid.cleared.laid, fun i => ?_, h.count, ?_, ?_⟩
  · have hchain := h.chains i
    rw [shelved_eq_nil.mp hempty i, Chunk.Chain.nil_iff] at hchain ⊢
    exact hchain
  · simp [step, hempty]
  · simp [step, hempty]

section

variable (h : d.Stocked k R lists) (hs : size ≤ R)
  (hr : (d.yard.step (.carve size)).2.machine.Reliable)
include h hs hr

theorem carve : Stocked { d with yard := (d.yard.step (.carve size)).2 } k R lists := by
  have hlaid := (h.laid.carved hs).laid h.laid hs hr
  refine h.congr hlaid (fun p hp => ?_) (h.laid.carve_memory hs hr)
  rcases h.laid.carve_lots hs with ⟨_, -, hlots⟩ | ⟨_, -, hlots⟩
  · rwa [hlots]
  · rw [hlots]
    exact List.mem_cons_of_mem _ hp

theorem carve_hand (chunk : ℕ) (hx : (d.yard.step (.carve size)).1 = some (.ok chunk))
    (hlen : Chunk.headerSize ≤ size) :
    Stocked { d with
      yard := (d.yard.step (.carve size)).2
      out := chunk :: d.out } k R lists := by
  rcases h.laid.carve_lots hs with ⟨_, hfailed, -⟩ | ⟨chunk', hok, hlots⟩
  · rw [hfailed] at hx
    simp at hx
  · obtain rfl : chunk' = chunk := by
      rw [hok] at hx
      simpa using hx
    have hcarved := h.carve hs hr
    have happart := hcarved.laid.pieces_apart
    simp only [hlots] at happart
    refine hcarved.hand (hlots ▸ List.mem_cons_self) hlen fun hmem => ?_
    -- a chunk known before is a piece of its own, and both have room for a header
    obtain ⟨p, hp, hstart, hlen'⟩ := h.pieces _ hmem
    have hd := (List.pairwise_cons.mp happart).1 p hp
    unfold Span.Disjoint Span.stop at hd
    unfold Chunk.headerSize at hlen hlen'
    simp only at hd hstart
    omega

end

theorem takes (h : d.Stocked k R lists) (size : ℕ) :
    d.table.Takes d.yard.source size d.yard.machine
      (d.table.take size d.yard.source d.yard.machine) := by
  have hcursor := h.laid.lots.cursor_le
  rw [← h.laid.size] at hcursor
  exact BucketTable.takes h.unit (fun _ _ => h.count_pos) hcursor h.laid.regionSize_lt

theorem take_step (h : d.Stocked k R lists) (hk : 3 ≤ k)
    (hr : (d.step (.take size)).yard.machine.Reliable) :
    ∃ lists, (d.step (.take size)).Stocked k R lists := by
  have htakes := h.takes size
  simp only [step] at hr ⊢
  generalize d.table.take size d.yard.source d.yard.machine = x at htakes hr ⊢
  have hunit : 8 ≤ d.table.unit := by
    rw [h.unit]
    exact Nat.pow_le_pow_right (show 0 < 2 by decide) hk
  -- a bucket found empty is reported first, which is no call and changes no byte
  have hreported := h.congr (h.laid.report (.bucketEmpty (Word.ceil size d.table.unit)
    d.table.unit)) (fun p hp => hp) (fun p hp x hx => rfl)
  cases htakes with
  | rejected fault rejects calm =>
    rcases calm with rfl | ⟨e, rfl⟩
    · exact ⟨lists, h⟩
    · exact ⟨lists, h.congr (h.laid.report e) (fun p hp => hp) (fun p hp x hx => rfl)⟩
  | @reused i chunk accepts top =>
    obtain ⟨rest, hi⟩ : ∃ rest, lists i = chunk :: rest := by
      have hhead := (h.chains i).head_eq
      rw [top] at hhead
      exact List.head?_eq_some_iff.mp hhead.symm
    -- the size is written over the link, when the list no longer needs it
    have hsettled := (h.pop hi).size_written List.mem_cons_self (Word.ceil size d.table.unit)
    use Function.update lists i rest
    simp only [Quarry.settle, if_true]
    exact hsettled
  | @refused why r' w' accepts bound carve =>
    rw [h.laid.size] at bound
    have hstep : ((d.yard.report (.bucketEmpty (Word.ceil size d.table.unit)
        d.table.unit)).step (.carve (Word.ceil size d.table.unit))).2 =
        { d.yard with source := r', machine := w' } := by
      simp only [Quarry.step, Quarry.report, carve]
    have hcarved := hreported.carve bound (by simp only [hstep]; exact hr)
    simp only [hstep] at hcarved
    exact ⟨lists, hcarved⟩
  | @fresh chunk r' w' accepts bound pos carve =>
    rw [h.laid.size] at bound
    have hceil : Chunk.headerSize ≤ Word.ceil size d.table.unit := hunit.trans pos
    have hstep := hreported.laid.settle_carve bound (Nat.lt_of_lt_of_le (by decide) hceil) carve
    have hcarved := hreported.carve_hand bound (by simp only [hstep]; exact hr) chunk
      (by simp only [hstep]) hceil
    simp only [hstep] at hcarved
    exact ⟨lists, hcarved.size_written List.mem_cons_self _⟩

theorem carve_step (h : d.Stocked k R lists)
    (hr : (d.step (.carve size)).yard.machine.Reliable) :
    (d.step (.carve size)).Stocked k R lists := by
  by_cases hs : size ≤ R
  · have hlots := h.laid.carve_lots hs
    have hcarve := h.carve hs
    have hhand := h.carve_hand hs
    rcases hq : d.yard.step (.carve size) with ⟨answer, yard⟩
    rw [hq] at hlots hcarve hhand
    rcases hlots with ⟨failure, hx, -⟩ | ⟨chunk, hx, -⟩
    · obtain rfl : answer = some (.error failure) := hx
      simp only [step, hq] at hr ⊢
      exact hcarve hr
    · obtain rfl : answer = some (.ok chunk) := hx
      simp only [step, hq] at hr ⊢
      split
      · next hlen => exact hhand hr chunk rfl hlen
      · exact hcarve hr
  · have hcarve : d.yard.source.carve size d.yard.machine =
        (.error (.fault (.chunkExceedsRegion size d.yard.source.regionSize)), d.yard.source,
          d.yard.machine) := if_pos (by rw [h.laid.size]; omega)
    have hstep : d.step (.carve size) = d := by
      simp only [step, Quarry.step, hcarve]
    rwa [hstep]

/-- One trade keeps the depot stocked. -/
theorem step (h : d.Stocked k R lists) (hk : 3 ≤ k) {t : Trade} (ht : d.Ready t)
    (hr : (d.step t).yard.machine.Reliable) : ∃ lists, (d.step t).Stocked k R lists := by
  cases t with
  | take size => exact h.take_step hk hr
  | put padded chunk =>
    have hunit : 0 < d.table.unit := h.unit ▸ Nat.two_pow_pos k
    simp only [Depot.step]
    rcases BucketTable.put_cases hunit padded chunk d.yard.machine.memory with
      ⟨-, fault, hput⟩ | ⟨-, i, hput⟩
    · rw [hput]
      exact ⟨lists, h⟩
    · rw [hput]
      exact ⟨_, h.push i ht⟩
  | carve size => exact ⟨lists, h.carve_step hr⟩
  | write addr bytes =>
    obtain ⟨p, hp, hin, hout⟩ := ht
    use lists
    apply h.touch hp (fun hlen => h.not_shelved (hout hlen))
    exact (Memory.agreesOff_overlay _ _ _ _).mono hin
  | renew => exact ⟨_, h.renew⟩
  | releaseAll => exact ⟨lists, h.releaseAll ht⟩

theorem after (h : d.Stocked k R lists) (hk : 3 ≤ k) {ts : List Trade} (hv : Valid ts d)
    (hr : (after ts d).yard.machine.Reliable) : ∃ lists, (after ts d).Stocked k R lists := by
  induction ts generalizing d lists with
  | nil => exact ⟨lists, h⟩
  | cons t ts ih =>
    obtain ⟨_, hnext⟩ := h.step hk hv.1 (hr.mono (calls_after ts _))
    exact ih hnext hv.2 hr

omit [Platform π] in
/-- The chunks on the lists share no byte, so the count is far from leaving the
word range. -/
theorem count_le (h : d.Stocked k R lists) : d.table.count ≤ layoutLimit := by
  rw [h.count, ← List.length_map (Span.mk · Chunk.headerSize)]
  apply Span.length_le
  · rw [List.pairwise_map]
    refine (List.nodup_append.mp h.once).2.1.imp_of_mem fun hx hy hne => ?_
    obtain ⟨p, hp, rfl, hlen⟩ := h.piece_shelved hx
    obtain ⟨q, hq, rfl, hlen'⟩ := h.piece_shelved hy
    rcases h.laid.piece_eq_or_disjoint hp hq with rfl | hd
    · exact absurd rfl hne
    · exact hd.mono (Span.front_within hlen) (Span.front_within hlen')
  · intro s hs
    obtain ⟨x, -, rfl⟩ := List.mem_map.mp hs
    exact (by decide : 0 < Chunk.headerSize)
  · intro s hs
    obtain ⟨x, hx, rfl⟩ := List.mem_map.mp hs
    obtain ⟨p, hp, rfl, hlen⟩ := h.piece_shelved hx
    obtain ⟨base, -, -, hbelow, hin⟩ := h.laid.piece_region hp
    exact ((Span.front_within hlen).trans hin).2.trans hbelow

end Stocked

end Depot

end ChunkHeap
