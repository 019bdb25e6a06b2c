import Mathlib
import ChunkHeap.Proofs.Likeness
import ChunkHeap.Proofs.Twins

/-!
# Runs that differ in addresses and contents

Two runs give the same orders if they ask for the same and give back the same
earlier pointers, whatever their users write. If the platforms grant and refuse in
the same calls, both runs go the same way. Where ranges lie and what they hold
shows in the values of pointers only, and what they hold not even there.
-/

set_option autoImplicit false

namespace ChunkHeap

/-- Pointers handed out at the same time, for the last time if there were several. -/
structure Named (made made' : List ℕ) (ptr ptr' : ℕ) : Prop where
  left : ptr ∈ made
  right : ptr' ∈ made'
  since : made'.idxOf ptr' = made.idxOf ptr

namespace Named

variable {made made' : List ℕ} {p p' q q' : ℕ}

theorem eq_iff (h : Named made made' p p') (hq : Named made made' q q') : p = q ↔ p' = q' := by
  rw [← List.idxOf_inj h.left, ← List.idxOf_inj h.right, h.since, hq.since]

theorem cons (h : Named made made' p p') (hq : p ≠ q) (hq' : p' ≠ q') :
    Named (q :: made) (q' :: made') p p' where
  left := List.mem_cons_of_mem _ h.left
  right := List.mem_cons_of_mem _ h.right
  since := by rw [List.idxOf_cons_ne _ hq.symm, List.idxOf_cons_ne _ hq'.symm, h.since]

theorem head : Named (p :: made) (p' :: made') p p' where
  left := List.mem_cons_self
  right := List.mem_cons_self
  since := by rw [List.idxOf_cons_self, List.idxOf_cons_self]

end Named

/-- Related lists whose members are related in another way as well. -/
theorem forall₂_of_mem {α β : Type} {R S : α → β → Prop} {xs : List α} {ys : List β}
    (h : List.Forall₂ R xs ys) (hS : ∀ x ∈ xs, ∀ y ∈ ys, R x y → S x y) :
    List.Forall₂ S xs ys := by
  rw [List.forall₂_iff_zip] at h ⊢
  refine ⟨h.1, fun hxy => ?_⟩
  obtain ⟨hx, hy⟩ := List.of_mem_zip hxy
  exact hS _ hx _ hy (h.2 hxy)

namespace World

variable {π ρ : Type} {s : World π} {t : World ρ} {g g' : Ideal} {made made' : List ℕ}
  {twin : ℕ → ℕ → Prop} {a a' : Action}

/-- Loans of the same request at corresponding places. -/
structure Paired (twin : ℕ → ℕ → Prop) (g g' : Ideal) (made made' : List ℕ) (l l' : Loan) :
    Prop where
  size : l'.size = l.size
  align : l'.align = l.align
  place : l.place.Like (Ideal.Near g g') twin l'.place
  named : Named made made' l.ptr l'.ptr

theorem Paired.mono {k k' : Ideal} {l l' : Loan} (h : Paired twin g g' made made' l l')
    (hn : ∀ x y, Ideal.Near g g' x y → Ideal.Near k k' x y) :
    Paired twin k k' made made' l l' :=
  ⟨h.size, h.align, h.place.mono hn, h.named⟩

/-- Worlds that have come the same way but for addresses, with the pointers handed
out so far. -/
structure Akin (twin : ℕ → ℕ → Prop) (s : World π) (t : World ρ) (g g' : Ideal)
    (made made' : List ℕ) : Prop where
  left : s.Mirrors g
  right : t.Mirrors g'
  like : Ideal.Like twin g g'
  loans : List.Forall₂ (Paired twin g g' made made') s.loans t.loans
  calls : t.machine.provider.outline = s.machine.provider.outline

/-- Actions that give the same order, with the loans that they are about. -/
inductive Echoes (s : World π) (t : World ρ) (R : Loan → Loan → Prop) : Action → Action → Prop
  | request {a : Action} {size align : ℕ} (asks : a.asks? = some (size, align)) :
      Echoes s t R a a
  | free {l l' : Loan} (held : l ∈ s.loans) (held' : l' ∈ t.loans) (paired : R l l') :
      Echoes s t R (.free l.ptr) (.free l'.ptr)
  | deallocate {block block' : Block} {l l' : Loan} (held : l ∈ s.loans) (held' : l' ∈ t.loans)
      (paired : R l l') (ptr : block.ptr = l.ptr) (ptr' : block'.ptr = l'.ptr) :
      Echoes s t R (.deallocate block) (.deallocate block')
  | paddedSize {block block' : Block} {l l' : Loan} (held : l ∈ s.loans) (held' : l' ∈ t.loans)
      (paired : R l l') (ptr : block.ptr = l.ptr) (ptr' : block'.ptr = l'.ptr) :
      Echoes s t R (.paddedSize block) (.paddedSize block')

theorem Echoes.mono {R S : Loan → Loan → Prop} (h : Echoes s t R a a')
    (hS : ∀ l l', R l l' → S l l') : Echoes s t S a a' := by
  cases h with
  | request asks => exact .request asks
  | free held held' paired => exact .free held held' (hS _ _ paired)
  | deallocate held held' paired ptr ptr' => exact .deallocate held held' (hS _ _ paired) ptr ptr'
  | paddedSize held held' paired ptr ptr' => exact .paddedSize held held' (hS _ _ paired) ptr ptr'

namespace Mirrors

theorem chunkOf_eq (hs : s.Mirrors g) {l : Loan} (hl : l ∈ s.loans) :
    s.chunkOf l.ptr = l.place.chunk :=
  (hs.shows hl).chunk

theorem padded_eq (hs : s.Mirrors g) {l : Loan} (hl : l ∈ s.loans) :
    Chunk.size s.machine.memory (s.chunkOf l.ptr) = l.place.word := by
  rw [hs.chunkOf_eq hl]
  exact (hs.shows hl).headed.word

/-- The pointer lent last is the first of the live pointers. -/
theorem place_of_live (hs : s.Mirrors g) {l : Loan} {rest : List Loan} (hl : s.loans = l :: rest)
    {ptr : ℕ} {place : Place} {live : List (ℕ × Place)} (hlive : g.live = (ptr, place) :: live) :
    l.ptr = ptr ∧ l.place = place := by
  rw [hs.live, hl, List.map_cons] at hlive
  exact Prod.mk.inj (List.cons.inj hlive).1

theorem ptr_ne (hs : s.Mirrors g) {l : Loan} {rest : List Loan} (hl : s.loans = l :: rest) :
    ∀ k ∈ rest, k.ptr ≠ l.ptr := by
  have hn := hs.ptrs_nodup
  rw [hl, List.map_cons, List.nodup_cons] at hn
  intro k hk hptr
  exact hn.1 (hptr ▸ List.mem_map_of_mem hk)

/-- The pointer lent last belongs to the loan made last. -/
theorem exists_lent (hs : s.Mirrors g) {ptr : ℕ} {place : Place} {live : List (ℕ × Place)}
    (hlive : g.live = (ptr, place) :: live) :
    ∃ l rest, s.loans = l :: rest ∧ l.ptr = ptr ∧ l.place = place := by
  rw [hs.live] at hlive
  obtain ⟨l, rest, hl, heq, -⟩ := List.map_eq_cons_iff.mp hlive
  exact ⟨l, rest, hl, Prod.mk.inj heq⟩

theorem at_region (hs : s.Mirrors g) {l : Loan} (hl : l ∈ s.loans) {c : SizeClass}
    {ordinal base offset padded : ℕ} (hplace : l.place = .pooled c (base + offset) padded)
    (hb : g.bases.reverse[ordinal]? = some base) (hoffset : offset < g.regionSize) :
    s.At l (.region ordinal offset) := by
  have hregime : l.place.regime = Regime.ofSize l.total := Place.regime_of _ _
  have hchunk := hs.chunkOf_eq hl
  rw [hplace] at hregime hchunk
  rw [At, ← hregime, hs.kept.represents.regions]
  exact ⟨Regime.noConfusion, hoffset, base, hb, hchunk⟩

theorem at_reservation (hs : s.Mirrors g) {l : Loan} (hl : l ∈ s.loans) {base len : ℕ}
    {answers : List (Option ℕ)} (hplace : l.place = .reserved base len)
    (hb : s.machine.provider.answers = answers ++ [some base]) :
    s.At l (.reservation answers.length) := by
  have hregime : l.place.regime = Regime.ofSize l.total := Place.regime_of _ _
  have hchunk := hs.chunkOf_eq hl
  rw [hplace] at hregime hchunk
  refine ⟨hregime.symm, ?_, base, ?_, hchunk⟩
  · rw [hb, List.length_append, List.length_singleton]
  · rw [hb, List.getElem?_concat_length]

theorem hands (hs : s.Mirrors g) {l : Loan} {rest : List Loan} (hl : s.loans = l :: rest)
    {site : Site} (hat : s.At l site) : s.Hands l.ptr site := by
  have hmem : l ∈ s.loans := hl ▸ List.mem_cons_self
  have hsound := hs.loans l hmem
  refine ⟨l, rest, hl, rfl, ?_, hat⟩
  rw [hs.chunkOf_eq hmem, Loan.place, Place.chunk_of _ hsound.chunk]
  exact hsound.ptr

/-- Loans whose pointers were handed out at the same time are a pair. -/
theorem pair_of_since (ht : t.Mirrors g') {R : Loan → Loan → Prop}
    (h : List.Forall₂ R s.loans t.loans)
    (hn : ∀ l l', R l l' → Named made made' l.ptr l'.ptr) {l l' : Loan} (hl : l ∈ s.loans)
    (hl' : l' ∈ t.loans) (hsince : made'.idxOf l'.ptr = made.idxOf l.ptr) : R l l' := by
  obtain ⟨i, hi, rfl⟩ := List.mem_iff_getElem.mp hl
  have hi' : i < t.loans.length := h.length_eq ▸ hi
  have hp : R s.loans[i] t.loans[i] := h.get hi hi'
  have hnamed := hn _ _ hp
  have hptr : t.loans[i].ptr = l'.ptr :=
    (List.idxOf_inj hnamed.right).mp (hnamed.since.trans hsince.symm)
  rwa [List.inj_on_of_nodup_map ht.ptrs_nodup (List.getElem_mem hi') hl' hptr] at hp

theorem pair_of_blocks (hs : s.Mirrors g) (ht : t.Mirrors g') {R : Loan → Loan → Prop}
    (h : ∀ l ∈ s.loans, ∀ l' ∈ t.loans, made'.idxOf l'.ptr = made.idxOf l.ptr → R l l')
    {block block' : Block} (hb : ∃ l ∈ s.loans, l.block = some block)
    (hb' : ∃ l ∈ t.loans, l.block = some block')
    (hsince : made'.idxOf block'.ptr = made.idxOf block.ptr) :
    ∃ l ∈ s.loans, ∃ l' ∈ t.loans, R l l' ∧ block.ptr = l.ptr ∧ block'.ptr = l'.ptr := by
  obtain ⟨l, hl, hb⟩ := hb
  obtain ⟨l', hl', hb'⟩ := hb'
  have hptr := (hs.block_eq hl hb).1
  have hptr' := (ht.block_eq hl' hb').1
  rw [hptr, hptr'] at hsince
  exact ⟨l, hl, l', hl', h l hl l' hl' hsince, hptr, hptr'⟩

/-- Actions of one order are about loans whose pointers were handed out at the
same time. -/
theorem echoes (hs : s.Mirrors g) (ht : t.Mirrors g') {R : Loan → Loan → Prop}
    (h : ∀ l ∈ s.loans, ∀ l' ∈ t.loans, made'.idxOf l'.ptr = made.idxOf l.ptr → R l l')
    (ha : s.Ready a) (ha' : t.Ready a') {o : Order} (ho : a.order? made = some o)
    (ho' : a'.order? made' = some o) : Echoes s t R a a' := by
  cases a with
  | alloc size align =>
    cases ho
    obtain rfl : a' = .alloc size align := by
      cases a' with
      | alloc size' align' =>
        cases ho'
        rfl
      | _ => cases ho'
    exact .request rfl
  | allocate layout zeroed =>
    cases ho
    obtain rfl : a' = .allocate layout zeroed := by
      cases a' with
      | allocate layout' zeroed' =>
        cases layout
        cases layout'
        cases ho'
        rfl
      | _ => cases ho'
    exact .request rfl
  | free ptr =>
    cases ho
    obtain ⟨ptr', rfl, hsince⟩ : ∃ ptr', a' = .free ptr' ∧ made'.idxOf ptr' = made.idxOf ptr := by
      cases a' <;> simp_all [Action.order?]
    obtain ⟨l, hl, rfl⟩ := ha
    obtain ⟨l', hl', rfl⟩ := ha'
    exact .free hl hl' (h l hl l' hl' hsince)
  | deallocate block =>
    cases ho
    obtain ⟨block', rfl, hsince⟩ : ∃ block', a' = .deallocate block' ∧
        made'.idxOf block'.ptr = made.idxOf block.ptr := by
      cases a' <;> simp_all [Action.order?]
    obtain ⟨l, hl, l', hl', hp, hptr, hptr'⟩ := hs.pair_of_blocks ht h ha ha' hsince
    exact .deallocate hl hl' hp hptr hptr'
  | paddedSize block =>
    cases ho
    obtain ⟨block', rfl, hsince⟩ : ∃ block', a' = .paddedSize block' ∧
        made'.idxOf block'.ptr = made.idxOf block.ptr := by
      cases a' <;> simp_all [Action.order?]
    obtain ⟨l, hl, l', hl', hp, hptr, hptr'⟩ := hs.pair_of_blocks ht h ha ha' hsince
    exact .paddedSize hl hl' hp hptr hptr'
  | write addr bytes => cases ho

end Mirrors

namespace Akin

theorem answers_length (h : Akin twin s t g g' made made') :
    s.machine.provider.answers.length = t.machine.provider.answers.length :=
  Note.length_answers h.calls

theorem counterparts (h : Akin twin s t g g' made made') :
    List.Forall₂ (Counterparts s t) s.loans t.loans := by
  refine forall₂_of_mem h.loans fun l hl l' hl' hp => ⟨hp.size, hp.align, ?_⟩
  rw [h.left.padded_eq hl, h.right.padded_eq hl', hp.place.word_eq]

/-- The chunks lent last are at the same site, if those of reservations are in the
latest ones. -/
theorem exists_site (h : Akin twin s t g g' made made') {l l' : Loan} {rest rest' : List Loan}
    (hl : s.loans = l :: rest) (hl' : t.loans = l' :: rest')
    (hp : l.place.Like (Ideal.Near g g') twin l'.place)
    (hasked : ∀ base len, l.place = .reserved base len →
      ∃ answers, s.machine.provider.answers = answers ++ [some base])
    (hasked' : ∀ base len, l'.place = .reserved base len →
      ∃ answers, t.machine.provider.answers = answers ++ [some base]) :
    ∃ site, s.Hands l.ptr site ∧ t.Hands l'.ptr site := by
  have hmem : l ∈ s.loans := hl ▸ List.mem_cons_self
  have hmem' : l' ∈ t.loans := hl' ▸ List.mem_cons_self
  generalize hplace : l.place = place at hp hasked
  generalize hplace' : l'.place = place' at hp hasked'
  cases hp with
  | pooled hnear =>
    obtain ⟨ordinal, base, base', offset, hb, hb', hoffset, rfl, rfl⟩ :=
      hnear.ordinal h.like.bases.length_eq.symm
    have hat := h.left.at_region hmem hplace hb hoffset
    have hat' := h.right.at_region hmem' hplace' hb' (h.like.regionSize ▸ hoffset)
    exact ⟨_, h.left.hands hl hat, h.right.hands hl' hat'⟩
  | reserved hbase =>
    obtain ⟨answers, hb⟩ := hasked _ _ rfl
    obtain ⟨answers', hb'⟩ := hasked' _ _ rfl
    have hlen := h.answers_length
    rw [hb, hb', List.length_append, List.length_append] at hlen
    have hat := h.left.at_reservation hmem hplace hb
    have hat' := h.right.at_reservation hmem' hplace' hb'
    rw [← Nat.add_right_cancel hlen] at hat'
    exact ⟨_, h.left.hands hl hat, h.right.hands hl' hat'⟩

theorem echoes (h : Akin twin s t g g' made made') (ha : s.Ready a) (ha' : t.Ready a') {o : Order}
    (ho : a.order? made = some o) (ho' : a'.order? made' = some o) :
    Echoes s t (Paired twin g g' made made') a a' := by
  refine h.left.echoes h.right (fun l hl l' hl' hsince => ?_) ha ha' ho ho'
  exact h.right.pair_of_since h.loans (fun _ _ hp => hp.named) hl hl' hsince

theorem corresponds (h : Akin twin s t g g' made made')
    (he : Echoes s t (Paired twin g g' made made') a a') :
    Ideal.Corresponds twin g g' a a' := by
  cases he with
  | request asks => exact .request asks
  | free held held' paired =>
    exact .free (h.left.lookup_eq held) (h.right.lookup_eq held') paired.place
  | deallocate held held' paired ptr ptr' =>
    refine .deallocate ?_ ?_ paired.place
    · rw [ptr, h.left.lookup_eq held]
    · rw [ptr', h.right.lookup_eq held']
  | paddedSize held held' paired ptr ptr' =>
    refine .paddedSize ?_ ?_ paired.place
    · rw [ptr, h.left.lookup_eq held]
    · rw [ptr', h.right.lookup_eq held']

end Akin

variable [Platform π] [Platform ρ]

/-- Loans stay paired, and a new one is paired with a new one, all under the names
that their pointers have after the step. -/
theorem forall₂_loans_step {k k' : Ideal} {B : Loan → Loan → Prop}
    (hs : (s.step a).2.Mirrors k) (ht : (t.step a').2.Mirrors k')
    (he : Echoes s t (fun l l' => Named made made' l.ptr l'.ptr) a a')
    (hkept : List.Forall₂ (fun l l' => B l l' ∧ Named made made' l.ptr l'.ptr) s.loans t.loans)
    (hnew : Option.Rel (fun _ _ => ∀ l rest l' rest', (s.step a).2.loans = l :: rest →
      (t.step a').2.loans = l' :: rest' → l'.size = l.size → l'.align = l.align → B l l')
      (s.step a).1.ptr? (t.step a').1.ptr?) :
    List.Forall₂ (fun l l' => B l l' ∧
      Named ((s.step a).1.ptr?.toList ++ made) ((t.step a').1.ptr?.toList ++ made') l.ptr l'.ptr)
      (s.step a).2.loans (t.step a').2.loans := by
  have hback : ∀ {l l' : Loan}, Named made made' l.ptr l'.ptr →
      List.Forall₂ (fun l l' => B l l' ∧ Named made made' l.ptr l'.ptr) (s.without l.ptr)
        (t.without l'.ptr) := by
    intro l l' hl
    refine List.rel_filter (fun k k' hk => ?_) hkept
    simp only [decide_eq_true_eq, ne_eq, hk.2.eq_iff hl]
  cases he with
  | @request a size align asks =>
    generalize hptr : (s.step a).1.ptr? = left at hnew ⊢
    generalize hptr' : (t.step a).1.ptr? = right at hnew ⊢
    cases hnew with
    | none =>
      rw [loans_refused asks hptr, loans_refused asks hptr']
      exact hkept
    | some hnew =>
      have hl := World.loans_step asks hptr
      have hl' := World.loans_step (s := t) asks hptr'
      have hnew := hnew _ _ _ _ hl hl' rfl rfl
      rw [hl, hl']
      refine .cons ⟨hnew, .head⟩ (forall₂_of_mem hkept fun k hk k' hk' hkk => ⟨hkk.1, ?_⟩)
      exact hkk.2.cons (hs.ptr_ne hl k hk) (ht.ptr_ne hl' k' hk')
  | free held held' paired => exact hback paired
  | deallocate held held' paired ptr ptr' =>
    have hl := hback paired
    rw [← ptr, ← ptr'] at hl
    exact hl
  | paddedSize held held' paired ptr ptr' => exact hkept

namespace Akin

/-- Platforms that grant and refuse alike let both worlds go the same way. -/
theorem exists_parallel (h : Akin twin s t g g' made made')
    (he : Echoes s t (Paired twin g g' made made') a a') (ha : s.Ready a) (ha' : t.Ready a')
    (hs : (s.step a).2.machine.Honoured) (ht : (t.step a').2.machine.Honoured)
    (hagree : Agree (Option.Rel twin) (s.step a).2.machine.provider.answers
      (t.step a').2.machine.provider.answers) :
    ∃ x y, Ideal.Parallel twin g g' x y ∧ s.Goes a x ∧ t.Goes a' y := by
  have hc := h.corresponds he
  have hroomy := h.left.kept.owns.roomy
  have hf := h.left.step_follows ha hs
  have hf' := h.right.step_follows ha' ht
  have hasks := Note.length_answers (h.like.react .none hroomy hc).notes
  obtain ⟨b, c, hbc, hb, hb'⟩ := Ideal.exists_answers (R := Option.Rel twin)
    (p := s.machine.provider) (q := t.machine.provider) .none hasks <| by
      intro len len' b c hp hq
      rw [← hf.provider] at hp
      rw [← hf'.provider] at hq
      rw [Provider.answers_asked hp, Provider.answers_asked hq] at hagree
      exact hagree.last h.answers_length
  exact ⟨_, _, h.like.react hbc hroomy hc, h.left.goes ha hs hb, h.right.goes ha' ht hb'⟩

variable {x y : Answer × Ideal × List Note}

theorem loans_step (h : Akin twin s t g g' made made')
    (he : Echoes s t (Paired twin g g' made made') a a') (hp : Ideal.Parallel twin g g' x y)
    (hx : s.Goes a x) (hy : t.Goes a' y) :
    List.Forall₂ (Paired twin x.2.1 y.2.1 ((s.step a).1.ptr?.toList ++ made)
      ((t.step a').1.ptr?.toList ++ made')) (s.step a).2.loans (t.step a').2.loans := by
  have hnear : List.Forall₂ (Paired twin x.2.1 y.2.1 made made') s.loans t.loans :=
    h.loans.imp fun _ _ hl => hl.mono hp.near
  have hkept := hnear.imp (S := fun l l' => (l'.size = l.size ∧ l'.align = l.align ∧
      l.place.Like (Ideal.Near x.2.1 y.2.1) twin l'.place) ∧ Named made made' l.ptr l'.ptr)
    fun _ _ hl => ⟨⟨hl.size, hl.align, hl.place⟩, hl.named⟩
  refine (forall₂_loans_step hx.mirrors hy.mirrors (he.mono fun _ _ hl => hl.named) hkept ?_).imp
    fun _ _ hl => ⟨hl.1.1, hl.1.2.1, hl.1.2.2, hl.2⟩
  rw [hx.answer, hy.answer]
  cases hptr : x.1.ptr? with
  | none =>
    rw [hp.ptr?_none hptr]
    exact .none
  | some ptr =>
    obtain ⟨ptr', place, place', hptr', hd⟩ := hp.handed ptr hptr
    rw [hptr']
    refine .some fun l rest l' rest' hl hl' hsize halign => ⟨hsize, halign, ?_⟩
    rw [(hx.mirrors.place_of_live hl hd.live).2, (hy.mirrors.place_of_live hl' hd.live').2]
    exact hd.matched

theorem step (h : Akin twin s t g g' made made')
    (he : Echoes s t (Paired twin g g' made made') a a') (hp : Ideal.Parallel twin g g' x y)
    (hx : s.Goes a x) (hy : t.Goes a' y) :
    Akin twin (s.step a).2 (t.step a').2 x.2.1 y.2.1 ((s.step a).1.ptr?.toList ++ made)
      ((t.step a').1.ptr?.toList ++ made') where
  left := hx.mirrors
  right := hy.mirrors
  like := hp.like
  loans := h.loans_step he hp hx hy
  calls := by
    have hcalls := h.calls
    rw [Provider.outline_eq, Provider.outline_eq] at hcalls ⊢
    rw [hx.requests, hy.requests, List.map_append, List.map_append, hcalls, hp.notes]

theorem alike (h : Akin twin s t g g' made made')
    (he : Echoes s t (Paired twin g g' made made') a a') (hp : Ideal.Parallel twin g g' x y)
    (hx : s.Goes a x) (hy : t.Goes a' y) : Alike (s.step a) (t.step a') := by
  have hnext := h.step he hp hx hy
  constructor
  · rw [hx.answer, hy.answer, hp.answer]
  · rw [hnext.left.stats_eq, hnext.right.stats_eq, hp.like.stats_eq]
  · exact hnext.calls
  · exact hnext.counterparts
  · intro ptr hptr
    obtain ⟨ptr', place, place', hptr', hd⟩ := hp.handed ptr (hx.answer ▸ hptr)
    obtain ⟨l, rest, hl, rfl, rfl⟩ := hx.mirrors.exists_lent hd.live
    obtain ⟨l', rest', hl', rfl, rfl⟩ := hy.mirrors.exists_lent hd.live'
    obtain ⟨site, hhands, hhands'⟩ := hnext.exists_site hl hl' hd.matched
      (fun base len hplace => ⟨_, Provider.answers_asked (hd.asked base len hplace ▸ hx.requests)⟩)
      (fun base len hplace => ⟨_, Provider.answers_asked (hd.asked' base len hplace ▸ hy.requests)⟩)
    exact ⟨l'.ptr, site, hy.answer ▸ hptr', hhands, hhands'⟩

theorem ptr_eq (hp : Ideal.Parallel twin g g' x y) (hx : s.Goes a x) (hy : t.Goes a' y)
    (ht : ∀ u v, twin u v → v = u) : (t.step a').1.ptr? = (s.step a).1.ptr? := by
  rw [hx.answer, hy.answer]
  cases hptr : x.1.ptr? with
  | none => exact hp.ptr?_none hptr
  | some ptr =>
    obtain ⟨ptr', place, place', hptr', hd⟩ := hp.handed ptr hptr
    rw [hptr', hd.same ht]

end Akin

theorem Akin.resume (h : Akin twin s t g g' made made') {acts acts' rest rest' : List Action}
    {s' : World π} {t' : World ρ} (hs : Resumes made acts s rest s')
    (ht : Resumes made' acts' t rest' t') : Akin twin s' t' g g' made made' where
  left := hs.mirrors g h.left
  right := ht.mirrors g' h.right
  like := h.like
  loans := by
    rw [hs.loans, ht.loans]
    exact h.loans
  calls := by
    rw [hs.provider, ht.provider]
    exact h.calls

/-- Runs that give the same orders go the same way, as long as the platforms grant
and refuse alike. -/
theorem Akin.run {acts acts' : List Action} {os : List Order}
    (h : Akin twin s t g g' made made') (hv : Valid acts s) (hv' : Valid acts' t)
    (hs : (after acts s).machine.Honoured) (ht : (after acts' t).machine.Honoured)
    (ho : orders made acts s = os) (ho' : orders made' acts' t = os)
    (hagree : Agree (Option.Rel twin) (after acts s).machine.provider.answers
      (after acts' t).machine.provider.answers) :
    List.Forall₂ (fun x y => Alike x y ∧
      ((∀ u v, twin u v → v = u) → y.1.ptr? = x.1.ptr?)) (course acts s) (course acts' t) := by
  -- writes give no order, so the induction is on the orders and not on the actions
  induction os generalizing s t g g' made made' acts acts' with
  | nil =>
    rw [course_eq_nil ho, course_eq_nil ho']
    exact .nil
  | cons o os ih =>
    obtain ⟨a, rest, s₁, ha, hr⟩ := exists_resumes hv ho
    obtain ⟨a', rest', t₁, ha', hr'⟩ := exists_resumes hv' ho'
    have hstart := h.resume hr hr'
    rw [hr.after] at hs hagree
    rw [hr'.after] at ht hagree
    rw [hr.orders] at ho
    rw [hr'.orders] at ho'
    have he := hstart.echoes hr.valid.1 hr'.valid.1 ha ha'
    have hfirst := hagree.shorten (grew_after rest (s₁.step a).2).answers
      (grew_after rest' (t₁.step a').2).answers
    obtain ⟨x, y, hp, hx, hy⟩ := hstart.exists_parallel he hr.valid.1 hr'.valid.1
      (honoured_step hs) (honoured_step ht) hfirst
    rw [hr.course, hr'.course, course_cons ha, course_cons ha']
    refine .cons ⟨hstart.alike he hp hx hy, Akin.ptr_eq hp hx hy⟩ ?_
    exact ih (hstart.step he hp hx hy) hr.valid.2 hr'.valid.2 hs ht (orders_tail ha ho)
      (orders_tail ha' ho') hagree

theorem placement_is_invisible {h h' : Heap} (hf : h.Fresh) (hf' : h'.Fresh)
    (hsize : h'.regions.regionSize = h.regions.regionSize) (w : Machine π) (v : Machine ρ)
    {acts acts' : List Action} (hv : Valid acts (start h w)) (hv' : Valid acts' (start h' v))
    (hw : (after acts (start h w)).machine.Honoured)
    (hw' : (after acts' (start h' v)).machine.Honoured)
    (ho : orders [] acts' (start h' v) = orders [] acts (start h w))
    (hgrants : Agree (fun b c => b.isSome = c.isSome)
      (after acts (start h w)).machine.provider.answers
      (after acts' (start h' v)).machine.provider.answers) :
    List.Forall₂ Alike (course acts (start h w)) (course acts' (start h' v)) ∧
    (Agree Eq (after acts (start h w)).machine.provider.answers
        (after acts' (start h' v)).machine.provider.answers →
      List.Forall₂ (fun x y => y.1.ptr? = x.1.ptr?) (course acts (start h w))
        (course acts' (start h' v))) := by
  have hakin : ∀ twin : ℕ → ℕ → Prop,
      Akin twin (start h w) (start h' v) h.ideal h'.ideal [] [] := fun twin =>
    ⟨hf.mirrors w, hf'.mirrors v, .empty hsize, .nil, rfl⟩
  constructor
  · have hagree := hgrants.mono (S := Option.Rel fun _ _ => True) <| by
      rintro (_ | base) (_ | base') hbc
      · exact .none
      · cases hbc
      · cases hbc
      · exact .some trivial
    exact ((hakin _).run hv hv' hw hw' rfl ho hagree).imp fun _ _ hxy => hxy.1
  · intro hplaced
    have hagree := hplaced.mono (S := Option.Rel fun u v => v = u) <| by
      rintro (_ | base) _ rfl
      · exact .none
      · exact .some rfl
    exact ((hakin _).run hv hv' hw hw' rfl ho hagree).imp fun _ _ hxy => hxy.2 fun _ _ huv => huv

/-- An arena whose ranges hold what was left in them. -/
structure Littered where
  arena : Arena
  tenant : Tenant

instance : Platform Littered where
  reserve := fun p len =>
    let (grant, arena, tenant) := p.arena.reserve p.tenant len
    (grant.map fun g => ⟨g.base, fun i => UInt8.ofNat (37 * i + 11)⟩, ⟨arena, tenant⟩)
  release := fun p addr len =>
    let (accepted, arena) := p.arena.release addr len
    ⟨accepted, [], arena, { p.tenant with released := p.tenant.released + 1 }⟩

/-- Ranges are pushed by these distances. -/
def onLittered (skew : List ℕ) : World Littered :=
  start (Heap.empty 11 defaultRegionSize)
    { memory := fun _ => 255, platform := ⟨{}, { terms := { skew := skew } }⟩ }

/-- The errands with other writes, given the first and the third pointer. -/
def rounds (first third : ℕ) : List Action :=
  [.alloc 16 8, .alloc 2000000 64, .write first [7, 7], .alloc 20 4, .free first,
    .write third [8, 9, 10], .alloc 3 16]

theorem placement_is_invisible_errands :
    (course errands onArena).map (·.1.ptr?) = [some 0x100000000008, some 0x100000400040,
      some 0x100000000028, none, some 0x100000000010] ∧
    (course (rounds 0x100000000010 0x100000000030) (onLittered [8, 4104])).map (·.1.ptr?) =
      [some 0x100000000010, some 0x100000402040, some 0x100000000030, none,
        some 0x100000000010] ∧
    List.Forall₂ Alike (course errands onArena)
      (course (rounds 0x100000000010 0x100000000030) (onLittered [8, 4104])) ∧
    List.Forall₂ (fun x y => y.1.ptr? = x.1.ptr?) (course errands onArena)
      (course (rounds 0x100000000008 0x100000000028) (onLittered [])) := by
  have hptrs : (course errands onArena).map (·.1.ptr?) = [some 0x100000000008,
      some 0x100000400040, some 0x100000000028, none, some 0x100000000010] := by
    decide +kernel
  have hpushed : (course (rounds 0x100000000010 0x100000000030) (onLittered [8, 4104])).map
      (·.1.ptr?) = [some 0x100000000010, some 0x100000402040, some 0x100000000030, none,
        some 0x100000000010] := by
    decide +kernel
  have hv : Valid errands onArena := by decide +kernel
  have hh : (after errands onArena).machine.Honoured := by decide +kernel
  have hv' : Valid (rounds 0x100000000010 0x100000000030) (onLittered [8, 4104]) := by
    decide +kernel
  have hv'' : Valid (rounds 0x100000000008 0x100000000028) (onLittered []) := by decide +kernel
  have halike := placement_is_invisible (.plain 7) (.plain 11) rfl _ _ hv hv' hh
    (by decide +kernel) (by decide +kernel) (Agree.of_map (by decide +kernel))
  have hsame := placement_is_invisible (.plain 7) (.plain 11) rfl _ _ hv hv'' hh
    (by decide +kernel) (by decide +kernel) (Agree.of_map (by decide +kernel))
  exact ⟨hptrs, hpushed, halike.1, hsame.2 (Agree.of_eq (by decide +kernel))⟩

end World

end ChunkHeap
