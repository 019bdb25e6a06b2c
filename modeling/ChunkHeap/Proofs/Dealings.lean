import Mathlib
import ChunkHeap.Proofs.Conservation
import ChunkHeap.Proofs.Journal

/-!
# What a step learns from the platform

A step makes one call at most and learns one thing from it, the answer to a
reservation. So it does with any platform what it does with a stub that gives
this answer, and the same heap does the same on two platforms that answer alike.
-/

set_option autoImplicit false

namespace ChunkHeap

/-- A platform that gives one answer to every reservation. -/
structure Stub where
  answer : Option ℕ

instance : Platform Stub where
  reserve := fun s _ => (s.answer.map fun base => ⟨base, fun _ => 0⟩, s)
  release := fun s _ _ => ⟨true, [], s⟩

namespace Note

/-- The answer to a reservation. -/
def answer? : Note → Option (Option ℕ)
  | .reserved _ base => some base
  | _ => none

/-- The note of a call without the platform's word on a release. -/
def taken : Note → Note
  | .released base len _ => .released base len true
  | n => n

theorem answer?_taken (n : Note) : n.taken.answer? = n.answer? := by
  cases n <;> rfl

end Note

namespace Provider

variable {π : Type}

/-- The answers to reservations, the oldest first. -/
def answers (p : Provider π) : List (Option ℕ) := p.calls.filterMap Note.answer?

/-- The calls made, as they can be told without asking the platform. -/
def requests (p : Provider π) : List Note := p.calls.map Note.taken

theorem answers_eq (p : Provider π) : p.answers = p.requests.filterMap Note.answer? := by
  rw [requests, List.filterMap_map]
  exact List.filterMap_congr fun n _ => n.answer?_taken.symm

theorem answers_asked {p p' : Provider π} {len : ℕ} {answer : Option ℕ}
    (h : p'.requests = p.requests ++ [.reserved len answer]) :
    p'.answers = p.answers ++ [answer] := by
  rw [answers_eq, h, List.filterMap_append, ← answers_eq]
  rfl

/-- The provider of one step. -/
def stub (answer : Option ℕ) : Provider Stub := ⟨⟨answer⟩, []⟩

theorem stub_reserve (answer : Option ℕ) (len : ℕ) :
    (stub answer).reserve len = (answer, ⟨⟨answer⟩, [.reserved len answer]⟩) := by
  cases answer <;> rfl

end Provider

namespace Ideal

variable {π ρ α β : Type} [Platform π] [Platform ρ]

/-- An operation on any platform does what it does on a stub: without a call,
with a reservation that the stub answers as the platform does, or with a release. -/
inductive Once (p : Provider π) (f : Provider Stub → α × Ideal × Provider Stub)
    (x : α × Ideal × Provider π) : Prop
  | calm (stub : ∀ c, f (.stub c) = (x.1, x.2.1, .stub c)) (left : x.2.2 = p)
  | asked (len : ℕ) (b : Option ℕ) (answer : p.reserve len = (b, x.2.2))
      (stub : f (.stub b) = (x.1, x.2.1, ⟨⟨b⟩, [.reserved len b]⟩))
      (calls : ∀ c, (f (.stub c)).2.2.calls = [.reserved len c])
  | gave (base len : ℕ)
      (stub : ∀ c, f (.stub c) = (x.1, x.2.1, ⟨⟨c⟩, [.released base len true]⟩))
      (left : x.2.2 = p.release base len)

theorem Once.map {p : Provider π} {f : Provider Stub → α × Ideal × Provider Stub}
    {x : α × Ideal × Provider π} (h : Once p f x) (k : α → Ideal → β) (m : α → Ideal → Ideal) :
    Once p (fun q => (k (f q).1 (f q).2.1, m (f q).1 (f q).2.1, (f q).2.2))
      (k x.1 x.2.1, m x.1 x.2.1, x.2.2) := by
  cases h with
  | calm stub left => exact .calm (fun c => by simp only [stub c]) left
  | asked len b answer stub calls => exact .asked len b answer (by simp only [stub]) calls
  | gave base len stub left => exact .gave base len (fun c => by simp only [stub c]) left

variable (g : Ideal) (p : Provider π)

theorem cut_once (padded : ℕ) : Once p (g.cut padded) (g.cut padded p) := by
  unfold cut
  cases hr : g.room padded with
  | some chunk => exact .calm (fun c => rfl) rfl
  | none =>
    simp only
    rcases ha : p.reserve g.regionSize with ⟨_ | base, p'⟩
    · exact .asked g.regionSize none ha (by rw [Provider.stub_reserve])
        fun c => by rw [Provider.stub_reserve]; cases c <;> rfl
    · exact .asked g.regionSize (some base) ha (by rw [Provider.stub_reserve])
        fun c => by rw [Provider.stub_reserve]; cases c <;> rfl

theorem draw_once (c : SizeClass) (padded : ℕ) : Once p (g.draw c padded) (g.draw c padded p) := by
  unfold draw
  cases hs : g.stack c padded with
  | cons chunk rest => exact .calm (fun c => rfl) rfl
  | nil => exact g.cut_once p padded

theorem takeOversized_once (total : ℕ) :
    Once p (g.takeOversized total) (g.takeOversized total p) := by
  unfold takeOversized
  simp only
  split
  · exact .calm (fun c => rfl) rfl
  · rcases ha : p.reserve (total + Chunk.oversizedPrefix) with ⟨_ | base, p'⟩
    · exact .asked _ none ha (by rw [Provider.stub_reserve])
        fun c => by rw [Provider.stub_reserve]; cases c <;> rfl
    · exact .asked _ (some base) ha (by rw [Provider.stub_reserve])
        fun c => by rw [Provider.stub_reserve]; cases c <;> rfl

theorem take_once (total : ℕ) : Once p (g.take total) (g.take total p) := by
  unfold take
  cases Regime.ofSize total with
  | pooled c => exact g.draw_once p c _
  | oversized => exact g.takeOversized_once p total

/-- The chunk of a request is lent, if there is one. -/
def lendAny (size align : ℕ) : Except Refusal ℕ → Ideal → Ideal
  | .error _, g => g
  | .ok chunk, g => g.lend size align chunk

theorem alloc_eq {size align : ℕ} (ha : Heap.alignmentAllowed align = true)
    (hfits : ¬ wordLimit ≤ Chunk.headerSize + size + align) : g.alloc size align p =
      ((g.take (Chunk.headerSize + size + align) p).1.map (Chunk.dataAt · align),
        lendAny size align (g.take (Chunk.headerSize + size + align) p).1
          (g.take (Chunk.headerSize + size + align) p).2.1,
        (g.take (Chunk.headerSize + size + align) p).2.2) := by
  rcases ht : g.take (Chunk.headerSize + size + align) p with ⟨_ | chunk, g', p'⟩
  · exact alloc_refused ha (Nat.lt_of_not_le hfits) ht
  · exact alloc_taken ha (Nat.lt_of_not_le hfits) ht

theorem alloc_once (size align : ℕ) : Once p (g.alloc size align) (g.alloc size align p) := by
  by_cases ha : Heap.alignmentAllowed align = true
  · by_cases hfits : wordLimit ≤ Chunk.headerSize + size + align
    · exact .calm (fun c => by simp [alloc, ha, hfits]) (by simp [alloc, ha, hfits])
    · have hstub : g.alloc size align = fun q : Provider Stub => _ :=
        funext fun q => g.alloc_eq q ha hfits
      rw [g.alloc_eq p ha hfits, hstub]
      exact (g.take_once p _).map (fun x _ => x.map (Chunk.dataAt · align)) (lendAny size align)
  · exact .calm (fun c => by simp [alloc, ha]) (by simp [alloc, ha])

theorem free_once (ptr : ℕ) : Once p (fun q => (Answer.returned (.ok ()), g.free ptr q))
    (Answer.returned (.ok ()), g.free ptr p) := by
  unfold free
  cases g.live.lookup ptr with
  | none => exact .calm (fun c => rfl) rfl
  | some place =>
    cases place with
    | pooled c chunk padded => exact .calm (fun c => rfl) rfl
    | reserved base len => exact .gave base len (fun c => rfl) rfl

theorem step_once (a : Action) : Once p (g.step a) (g.step a p) := by
  cases a with
  | alloc size align =>
    exact (g.alloc_once p size align).map (fun x _ => Answer.pointer (x.mapError .refused))
      fun _ g => g
  | allocate layout zeroed =>
    exact (g.alloc_once p layout.size layout.align).map (fun x g => Answer.block
      ((x.mapError .refused).map (g.block · layout.size layout.align))) fun _ g => g
  | free ptr => exact g.free_once p ptr
  | deallocate block => exact g.free_once p block.ptr
  | paddedSize block => exact .calm (fun c => rfl) rfl
  | write addr bytes => exact .calm (fun c => rfl) rfl

/-- What a step does on a platform that gives this answer. -/
def react (g : Ideal) (a : Action) (answer : Option ℕ) : Answer × Ideal × List Note :=
  ((g.step a (.stub answer)).1, (g.step a (.stub answer)).2.1,
    (g.step a (.stub answer)).2.2.calls)

/-- A step goes as if the platform were known to give this answer. -/
structure Hears (g : Ideal) (a : Action) (p : Provider π) (b : Option ℕ) : Prop where
  answer : (g.step a p).1 = (g.react a b).1
  ideal : (g.step a p).2.1 = (g.react a b).2.1
  requests : (g.step a p).2.2.requests = p.requests ++ (g.react a b).2.2

/-- A step asks for a reservation and hears the answer, or no answer matters. -/
theorem step_hears (a : Action) :
    (∃ len b, g.Hears a p b ∧ ∀ c, (g.react a c).2.2 = [.reserved len c]) ∨
    (∀ c, g.Hears a p c ∧ (g.react a c).2.2.filterMap Note.answer? = []) := by
  cases g.step_once p a with
  | calm stub left =>
    have hreact : ∀ c, g.react a c = ((g.step a p).1, (g.step a p).2.1, []) := by
      intro c
      rw [react, stub c]
      rfl
    refine Or.inr fun c => ⟨⟨?_, ?_, ?_⟩, ?_⟩
    · rw [hreact]
    · rw [hreact]
    · rw [hreact, left, List.append_nil]
    · rw [hreact]
      rfl
  | asked len b answer stub calls =>
    refine Or.inl ⟨len, b, ⟨?_, ?_, ?_⟩, calls⟩
    · rw [react, stub]
    · rw [react, stub]
    · rw [react, stub, Provider.requests, Provider.calls_reserve answer, List.map_append]
      rfl
  | gave base len stub left =>
    have hreact : ∀ c, g.react a c =
        ((g.step a p).1, (g.step a p).2.1, [.released base len true]) := by
      intro c
      rw [react, stub c]
    refine Or.inr fun c => ⟨⟨?_, ?_, ?_⟩, ?_⟩
    · rw [hreact]
    · rw [hreact]
    · obtain ⟨accepted, hcalls⟩ := p.calls_release base len
      rw [hreact, left, Provider.requests, hcalls, List.map_append]
      rfl
    · rw [hreact]
      rfl

/-- Two steps that both ask for a reservation or both do not ask go as if the
platforms were known to give answers in relation `R`, if it relates those given. -/
theorem exists_answers {g g' : Ideal} {a a' : Action} {p : Provider π} {q : Provider ρ}
    {R : Option ℕ → Option ℕ → Prop} (h : R none none)
    (hasks : ((g.react a none).2.2.filterMap Note.answer?).length =
      ((g'.react a' none).2.2.filterMap Note.answer?).length)
    (hR : ∀ len len' b c, (g.step a p).2.2.requests = p.requests ++ [.reserved len b] →
      (g'.step a' q).2.2.requests = q.requests ++ [.reserved len' c] → R b c) :
    ∃ b c, R b c ∧ g.Hears a p b ∧ g'.Hears a' q c := by
  rcases g.step_hears p a with ⟨len, b, hb, hcalls⟩ | hb
  · rcases g'.step_hears q a' with ⟨len', c, hc, hcalls'⟩ | hc
    · have hp := hb.requests
      have hq := hc.requests
      rw [hcalls] at hp
      rw [hcalls'] at hq
      exact ⟨b, c, hR len len' b c hp hq, hb, hc⟩
    · rw [hcalls, (hc none).2] at hasks
      cases hasks
  · rcases g'.step_hears q a' with ⟨len', c, hc, hcalls'⟩ | hc
    · rw [hcalls', (hb none).2] at hasks
      cases hasks
    · exact ⟨none, none, h, (hb none).1, (hc none).1⟩

end Ideal

theorem getElem?_of_isPrefix {α : Type} {xs xs' : List α} (h : xs <+: xs') {i : ℕ} {x : α}
    (hx : xs[i]? = some x) : xs'[i]? = some x := by
  obtain ⟨rest, rfl⟩ := h
  rwa [List.getElem?_append_left (List.getElem?_eq_some_iff.mp hx).1]

/-- Entries in the same place of two lists are related. -/
def Agree {α β : Type} (R : α → β → Prop) (xs : List α) (ys : List β) : Prop :=
  ∀ (i : ℕ) (x : α) (y : β), xs[i]? = some x → ys[i]? = some y → R x y

namespace Agree

variable {α β : Type} {R : α → β → Prop} {xs xs' : List α} {ys ys' : List β}

theorem of_map {γ : Type} {f : α → γ} {k : β → γ} (h : xs.map f = ys.map k) :
    Agree (fun x y => f x = k y) xs ys := by
  intro i x y hx hy
  have hi := congrArg (·[i]?) h
  simpa [hx, hy] using hi

theorem of_eq {xs ys : List α} (h : xs = ys) : Agree Eq xs ys := by
  subst h
  intro i x y hx hy
  exact Option.some.inj (hx.symm.trans hy)

theorem mono {S : α → β → Prop} (h : Agree R xs ys) (hS : ∀ x y, R x y → S x y) : Agree S xs ys :=
  fun i x y hx hy => hS x y (h i x y hx hy)

theorem shorten (h : Agree R xs' ys') (hx : xs <+: xs') (hy : ys <+: ys') : Agree R xs ys :=
  fun i x y hi hj => h i x y (getElem?_of_isPrefix hx hi) (getElem?_of_isPrefix hy hj)

theorem last {x : α} {y : β} (h : Agree R (xs ++ [x]) (ys ++ [y]))
    (hlen : xs.length = ys.length) : R x y := by
  apply h xs.length x y
  · simp
  · rw [hlen]
    simp

end Agree

namespace Machine

variable {π : Type} {w w' : Machine π}

theorem Grew.answers (h : w.Grew w') : w.provider.answers <+: w'.provider.answers :=
  (List.IsPrefix.filter _ h).filterMap _

end Machine

end ChunkHeap
