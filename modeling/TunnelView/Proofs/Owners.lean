import Mathlib
import TunnelView.Exchange

/-!
# Owners who share an exchange

Whatever the owners of an exchange do, a listener is subscribed to a topic only while an owner holds
that subscription. The converse fails where two owners hold the same one. They do not know of each
other, so to release one of them cuts the other off, until somebody subscribes the listener again.
Nothing else cuts an owner off.

Key definitions: `SharedExchange`, `SharedExchange.call`, `SharedExchange.cutOff`.
Key theorems: `SharedExchange.Sound.call`, `SharedExchange.subscribed_while_held_unless_cut_off`.
-/

namespace TunnelView

namespace Exchange

variable {L : Type} [DecidableEq L] {x : Exchange L} {topic : Topic} {listener : L}
  {pair : Topic × L} {held : List (ℕ × Topic × L)}

@[simp] theorem mem_subscribe :
    pair ∈ x.subscribe topic listener ↔ pair = (topic, listener) ∨ pair ∈ x := by
  unfold subscribe
  by_cases h : (topic, listener) ∈ x
  · rw [if_pos h]
    constructor
    · exact .inr
    · rintro (rfl | hpair)
      · exact h
      · exact hpair
  · rw [if_neg h, List.mem_append, List.mem_singleton, or_comm]

@[simp] theorem mem_unsubscribe :
    pair ∈ x.unsubscribe topic listener ↔ pair ≠ (topic, listener) ∧ pair ∈ x := by
  simp [unsubscribe, and_comm]

/-- To take all of some subscriptions away leaves the others. -/
theorem mem_foldl_unsubscribe :
    pair ∈ held.foldl (fun x (_, topic, listener) => x.unsubscribe topic listener) x ↔
      pair ∈ x ∧ ∀ token, (token, pair) ∉ held := by
  induction held generalizing x with
  | nil => simp
  | cons first held ih =>
    obtain ⟨token, topic, listener⟩ := first
    rw [List.foldl_cons, ih, mem_unsubscribe]
    simp only [List.mem_cons, Prod.mk.injEq, not_or]
    constructor
    · rintro ⟨⟨hne, hpair⟩, hrest⟩
      exact ⟨hpair, fun token' => ⟨fun h => hne h.2, hrest token'⟩⟩
    · rintro ⟨hpair, hall⟩
      exact ⟨⟨fun h => (hall token).1 ⟨rfl, h⟩, hpair⟩, fun token' => (hall token').2⟩

end Exchange

/-- An exchange with its owners: who is subscribed to what, the shapes of the messages, and what
each owner holds. -/
structure SharedExchange (ι L : Type) where
  exchange : Exchange L := []
  shapes : Topic.Shapes := []
  holdings : ι → Holdings L := fun _ => {}

namespace SharedExchange

/-- What an owner is asked to do. -/
inductive Call (ι L : Type) where
  | subscribe (owner : ι) (name : Value) (listener : L)
  | release (owner : ι)

/-- What was done. -/
inductive Deed (ι L : Type) where
  | subscribed (owner : ι) (pair : Topic × L) (token : ℕ)
  | refused (refusal : Topic.Refusal)
  | released (owner : ι)

variable {ι L : Type}

/-- Whether an owner holds the subscription of a listener to a topic. -/
def Holds (s : SharedExchange ι L) (owner : ι) (pair : Topic × L) : Prop :=
  ∃ token, (token, pair) ∈ (s.holdings owner).held

/-- Subscriptions are in place just while an owner holds them, but for those that are lost. -/
def Sound (s : SharedExchange ι L) (lost : Set (Topic × L)) : Prop :=
  ∀ pair, pair ∈ s.exchange ↔ (∃ owner, s.Holds owner pair) ∧ pair ∉ lost

theorem Sound.start : ({} : SharedExchange ι L).Sound ∅ := by
  intro pair
  simp [Holds]

variable [DecidableEq ι] [DecidableEq L]

/-- An owner subscribes a listener to a topic. -/
def enter (owner : ι) (topic : Topic) (listener : L) (shapes : Topic.Shapes)
    (s : SharedExchange ι L) : SharedExchange ι L :=
  let (_, holdings, exchange) := (s.holdings owner).subscribe topic listener s.exchange
  { exchange, shapes, holdings := Function.update s.holdings owner holdings }

/-- An owner is released. -/
def release (owner : ι) (s : SharedExchange ι L) : SharedExchange ι L :=
  let (holdings, exchange) := (s.holdings owner).release s.exchange
  { s with exchange, holdings := Function.update s.holdings owner holdings }

/-- An owner does what it is asked to do. A subscription that is refused leaves everything as it is.
-/
def call (face : L → Listener) (s : SharedExchange ι L) :
    Call ι L → Deed ι L × SharedExchange ι L
  | .subscribe owner name listener =>
    match s.shapes.listen (face listener) name with
    | .error refusal => (.refused refusal, s)
    | .ok (topic, shapes) =>
      let (token, _) := (s.holdings owner).subscribe topic listener s.exchange
      (.subscribed owner (topic, listener) token, s.enter owner topic listener shapes)
  | .release owner => (.released owner, s.release owner)

/-- The exchange after calls. -/
def after (face : L → Listener) (s : SharedExchange ι L) : List (Call ι L) → SharedExchange ι L
  | [] => s
  | c :: calls => (s.call face c).2.after face calls

/-- What calls do, in order. -/
def deeds (face : L → Listener) (s : SharedExchange ι L) : List (Call ι L) → List (Deed ι L)
  | [] => []
  | c :: calls => (s.call face c).1 :: (s.call face c).2.deeds face calls

/-- The token that an owner was given. -/
def Deed.token? (owner : ι) : Deed ι L → Option ℕ
  | .subscribed owner' _ token => if owner' = owner then some token else none
  | _ => none

/-- The tokens that an owner is given by calls. -/
def tokens (face : L → Listener) (owner : ι) (calls : List (Call ι L))
    (s : SharedExchange ι L) : List ℕ :=
  (s.deeds face calls).filterMap (Deed.token? owner)

/-- The subscriptions that are cut off after a deed. To release one of several owners who hold the
same cuts it off, and to subscribe again ends that. -/
def Deed.cutOff (s : SharedExchange ι L) (lost : Set (Topic × L)) : Deed ι L → Set (Topic × L)
  | .subscribed _ pair _ => lost \ {pair}
  | .refused _ => lost
  | .released owner =>
    lost ∪ {pair | s.Holds owner pair ∧ ∃ other, other ≠ owner ∧ s.Holds other pair}

/-- The subscriptions that are cut off after calls, if these were before. -/
def cutOff (face : L → Listener) :
    Set (Topic × L) → List (Call ι L) → SharedExchange ι L → Set (Topic × L)
  | lost, [], _ => lost
  | lost, c :: calls, s => cutOff face ((s.call face c).1.cutOff s lost) calls (s.call face c).2

variable {face : L → Listener} {s : SharedExchange ι L} {owner other : ι} {topic : Topic}
  {listener : L} {shapes : Topic.Shapes} {pair : Topic × L} {lost : Set (Topic × L)}
  {calls : List (Call ι L)}

@[simp] theorem mem_exchange_enter : pair ∈ (s.enter owner topic listener shapes).exchange ↔
    pair = (topic, listener) ∨ pair ∈ s.exchange :=
  Exchange.mem_subscribe

theorem holdings_enter : (s.enter owner topic listener shapes).holdings other =
    if other = owner then ((s.holdings owner).subscribe topic listener s.exchange).2.1
    else s.holdings other := by
  by_cases h : other = owner
  · subst h
    rw [if_pos rfl]
    exact Function.update_self ..
  · rw [if_neg h]
    exact Function.update_of_ne h ..

@[simp] theorem holds_enter : (s.enter owner topic listener shapes).Holds other pair ↔
    other = owner ∧ pair = (topic, listener) ∨ s.Holds other pair := by
  unfold Holds
  rw [holdings_enter]
  by_cases h : other = owner
  · subst h
    simp only [if_true, Holdings.subscribe, List.mem_append, List.mem_singleton, Prod.mk.injEq,
      true_and]
    constructor
    · rintro ⟨token, hheld | ⟨-, hnew⟩⟩
      · exact .inr ⟨token, hheld⟩
      · exact .inl hnew
    · rintro (hnew | ⟨token, hheld⟩)
      · exact ⟨_, .inr ⟨rfl, hnew⟩⟩
      · exact ⟨token, .inl hheld⟩
  · simp [h]

@[simp] theorem mem_exchange_release :
    pair ∈ (s.release owner).exchange ↔ pair ∈ s.exchange ∧ ¬s.Holds owner pair := by
  unfold Holds
  rw [not_exists]
  exact Exchange.mem_foldl_unsubscribe

theorem holdings_release_self :
    (s.release owner).holdings owner = { s.holdings owner with held := [] } :=
  Function.update_self ..

theorem holdings_release_of_ne (h : other ≠ owner) :
    (s.release owner).holdings other = s.holdings other :=
  Function.update_of_ne h ..

@[simp] theorem holds_release :
    (s.release owner).Holds other pair ↔ other ≠ owner ∧ s.Holds other pair := by
  by_cases h : other = owner
  · subst h
    simp [Holds, holdings_release_self]
  · simp [Holds, holdings_release_of_ne h, h]

/-- A call is refused and changes nothing, or an owner subscribes, or an owner is released. -/
theorem call_cases (face : L → Listener) (s : SharedExchange ι L) (c : Call ι L) :
    (∃ refusal, s.call face c = (.refused refusal, s)) ∨
    (∃ owner topic listener shapes, s.call face c =
      (.subscribed owner (topic, listener) (s.holdings owner).next,
        s.enter owner topic listener shapes)) ∨
    ∃ owner, s.call face c = (.released owner, s.release owner) := by
  cases c with
  | subscribe owner name listener =>
    simp only [call]
    cases s.shapes.listen (face listener) name with
    | error refusal => exact .inl ⟨refusal, rfl⟩
    | ok enrolled => exact .inr (.inl ⟨owner, enrolled.1, listener, enrolled.2, rfl⟩)
  | release owner => exact .inr (.inr ⟨owner, rfl⟩)

/-- To subscribe puts one subscription in place, and nothing else changes. -/
theorem Sound.enter (h : s.Sound lost) :
    (s.enter owner topic listener shapes).Sound (lost \ {(topic, listener)}) := by
  intro pair
  rw [mem_exchange_enter, h pair]
  by_cases hnew : pair = (topic, listener)
  · simp [hnew]
  · simp [hnew]

/-- To release an owner takes away what it held. What others held as well is cut off. -/
theorem Sound.release (h : s.Sound lost) : (s.release owner).Sound
    (lost ∪ {pair | s.Holds owner pair ∧ ∃ other, other ≠ owner ∧ s.Holds other pair}) := by
  intro pair
  rw [mem_exchange_release, h pair]
  constructor
  · rintro ⟨⟨⟨other, hother⟩, hlost⟩, hown⟩
    have hne : other ≠ owner := by
      rintro rfl
      exact hown hother
    refine ⟨⟨other, holds_release.mpr ⟨hne, hother⟩⟩, ?_⟩
    rintro (hlost' | ⟨hown', -⟩)
    · exact hlost hlost'
    · exact hown hown'
  · rintro ⟨⟨other, hother⟩, hcut⟩
    obtain ⟨hne, hother⟩ := holds_release.mp hother
    refine ⟨⟨⟨other, hother⟩, fun hlost => hcut (.inl hlost)⟩, fun hown => ?_⟩
    exact hcut (.inr ⟨hown, other, hne, hother⟩)

/-- A call keeps subscriptions in place just while they are held and not cut off. -/
theorem Sound.call (h : s.Sound lost) (c : Call ι L) :
    (s.call face c).2.Sound ((s.call face c).1.cutOff s lost) := by
  rcases call_cases face s c with ⟨refusal, hcall⟩ | ⟨owner, topic, listener, shapes, hcall⟩ |
    ⟨owner, hcall⟩
  · rw [hcall]
    exact h
  · rw [hcall]
    exact h.enter
  · rw [hcall]
    exact h.release

theorem Sound.after (face : L → Listener) (h : s.Sound lost) (calls : List (Call ι L)) :
    (s.after face calls).Sound (cutOff face lost calls s) := by
  induction calls generalizing s lost with
  | nil => exact h
  | cons c calls ih => exact ih (h.call c)

/-- An owner that subscribes is given its next token, and no call turns the count back. -/
theorem call_token (face : L → Listener) (s : SharedExchange ι L) (owner : ι) (c : Call ι L) :
    (s.call face c).1.token? owner = none ∧
      ((s.call face c).2.holdings owner).next = (s.holdings owner).next ∨
    (s.call face c).1.token? owner = some (s.holdings owner).next ∧
      ((s.call face c).2.holdings owner).next = (s.holdings owner).next + 1 := by
  rcases call_cases face s c with ⟨refusal, hcall⟩ | ⟨other, topic, listener, shapes, hcall⟩ |
    ⟨other, hcall⟩
  · rw [hcall]
    exact .inl ⟨rfl, rfl⟩
  · rw [hcall]
    dsimp only
    rw [holdings_enter]
    by_cases howner : owner = other
    · subst howner
      rw [if_pos rfl]
      exact .inr ⟨if_pos rfl, rfl⟩
    · rw [if_neg howner]
      exact .inl ⟨if_neg (Ne.symm howner), rfl⟩
  · rw [hcall]
    dsimp only
    by_cases howner : owner = other
    · subst howner
      rw [holdings_release_self]
      exact .inl ⟨rfl, rfl⟩
    · rw [holdings_release_of_ne howner]
      exact .inl ⟨rfl, rfl⟩

/-- The tokens of an owner count on from its next one. -/
theorem tokens_eq (face : L → Listener) (owner : ι) (calls : List (Call ι L))
    (s : SharedExchange ι L) :
    ∃ n, tokens face owner calls s = List.range' (s.holdings owner).next n := by
  unfold tokens
  induction calls generalizing s with
  | nil => exact ⟨0, rfl⟩
  | cons c calls ih =>
    obtain ⟨n, hn⟩ := ih (s.call face c).2
    rw [deeds, List.filterMap_cons]
    rcases call_token face s owner c with ⟨htoken, hnext⟩ | ⟨htoken, hnext⟩
    · rw [htoken, hn, hnext]
      exact ⟨n, rfl⟩
    · rw [htoken, hn, hnext]
      exact ⟨n + 1, rfl⟩

/-- Whether no two owners hold the same at any point of calls. -/
def Unshared (face : L → Listener) (s : SharedExchange ι L) (calls : List (Call ι L)) : Prop :=
  ∀ front rest, calls = front ++ rest → ∀ pair owner other,
    (s.after face front).Holds owner pair → (s.after face front).Holds other pair → other = owner

/-- Nobody is cut off where no two owners hold the same. -/
theorem cutOff_subset (h : s.Unshared face calls) : cutOff face lost calls s ⊆ lost := by
  induction calls generalizing s lost with
  | nil => exact subset_rfl
  | cons c calls ih =>
    have hrest : (s.call face c).2.Unshared face calls := by
      intro front rest hcalls
      exact h (c :: front) rest (by rw [hcalls, List.cons_append])
    have hnow : (s.call face c).1.cutOff s lost ⊆ lost := by
      rcases call_cases face s c with ⟨refusal, hcall⟩ | ⟨owner, topic, listener, shapes, hcall⟩ |
        ⟨owner, hcall⟩
      · rw [hcall]
        exact subset_rfl
      · rw [hcall]
        exact fun pair hpair => hpair.1
      · rw [hcall]
        rintro pair (hlost | ⟨hown, other, hne, hother⟩)
        · exact hlost
        · exact absurd (h [] (c :: calls) rfl pair owner other hown hother) hne
    exact (ih hrest).trans hnow

/-- **Subscriptions are in place just while they are held, unless they are cut off.** However many
owners share an exchange and whatever they are asked to do, a listener is subscribed to a topic just
while an owner holds that subscription and it is not cut off: since somebody last subscribed the
listener, no owner was released that held it together with another. So it is in place just while it
is held if no two owners ever hold the same. To release an owner leaves it with nothing, takes away
just what it held, and does not touch what others hold. The tokens of an owner are all numbers from
zero on, each given once, and to be released does not turn their count back. -/
theorem subscribed_while_held_unless_cut_off (face : L → Listener) (calls : List (Call ι L)) :
    let s := after face {} calls
    (∀ pair, pair ∈ s.exchange ↔
      (∃ owner, s.Holds owner pair) ∧ pair ∉ cutOff face ∅ calls {}) ∧
    (Unshared face {} calls → ∀ pair, pair ∈ s.exchange ↔ ∃ owner, s.Holds owner pair) ∧
    (∀ owner, (∀ pair, ¬(s.release owner).Holds owner pair) ∧
      (∀ pair, pair ∈ (s.release owner).exchange ↔ pair ∈ s.exchange ∧ ¬s.Holds owner pair) ∧
      ∀ other, other ≠ owner → (s.release owner).holdings other = s.holdings other) ∧
    ∀ owner, ∃ n, tokens face owner calls {} = List.range n := by
  intro s
  have hsound := Sound.start.after face calls
  refine ⟨hsound, ?_, ?_, ?_⟩
  · intro hunshared pair
    have hnone : pair ∉ cutOff face ∅ calls {} := fun hcut => cutOff_subset hunshared hcut
    have hplace := hsound pair
    simpa only [hnone, not_false_eq_true, and_true] using hplace
  · intro owner
    refine ⟨?_, fun pair => mem_exchange_release, fun other => holdings_release_of_ne⟩
    intro pair hheld
    exact (holds_release.mp hheld).1 rfl
  · intro owner
    obtain ⟨n, hn⟩ := tokens_eq face owner calls {}
    exact ⟨n, by rw [hn, List.range_eq_range']⟩

/-- A listener of a name that takes a status. -/
def hearing (name : String) : Listener := ⟨name, "host", Exchange.fields⟩

/-- The subscription that both owners hold. -/
def shared : Topic × String := (⟨["t"]⟩, "a")

/-- Two owners subscribe a listener to a topic, and the first is released. -/
def releaseOfOne : List (Call Bool String) :=
  [.subscribe false (.text "t") "a", .subscribe true (.text "t") "a", .release false]

/-- The listener is taken on, by whichever owner, if there is no other. -/
theorem call_subscribe_shared {s : SharedExchange Bool String} (owner : Bool)
    (h : s.shapes = [] ∨ s.shapes = [(shared.1, Exchange.fields)]) :
    s.call hearing (.subscribe owner (.text "t") "a") =
      (.subscribed owner shared (s.holdings owner).next,
        s.enter owner shared.1 "a" [(shared.1, Exchange.fields)]) := by
  have hlisten : Topic.Shapes.listen (hearing "a") (.text "t") s.shapes =
      .ok (shared.1, [(shared.1, Exchange.fields)]) := by
    rcases h with h | h
    · rw [h]
      cbv
    · rw [h]
      cbv
  simp only [call, hlisten]
  rfl

theorem after_releaseOfOne : after hearing {} releaseOfOne =
    SharedExchange.release false (enter true shared.1 "a" [(shared.1, Exchange.fields)]
      (enter false shared.1 "a" [(shared.1, Exchange.fields)] {})) := by
  simp only [releaseOfOne, after]
  rw [call_subscribe_shared false (.inl rfl)]
  dsimp only
  rw [call_subscribe_shared true (.inr rfl)]
  rfl

theorem holds_releaseOfOne : (after hearing {} releaseOfOne).Holds true shared := by
  rw [after_releaseOfOne, holds_release, holds_enter]
  exact ⟨Bool.true_eq_false_eq_False, .inl ⟨rfl, rfl⟩⟩

theorem notMem_releaseOfOne : shared ∉ (after hearing {} releaseOfOne).exchange := by
  have hheld : (enter true shared.1 "a" [(shared.1, Exchange.fields)]
      (enter false shared.1 "a" [(shared.1, Exchange.fields)] {})).Holds false shared := by
    rw [holds_enter, holds_enter]
    exact .inr (.inl ⟨rfl, rfl⟩)
  rw [after_releaseOfOne, mem_exchange_release]
  exact fun hshared => hshared.2 hheld

/-- One of the owners subscribes a listener to a topic. -/
def alone : List (Call Bool String) := [.subscribe false (.text "t") "a"]

/-- One owner alone holds nothing that another does. -/
theorem unshared_alone : ({} : SharedExchange Bool String).Unshared hearing alone := by
  have halone : ∀ pair owner, (after hearing {} alone).Holds owner pair → owner = false := by
    intro pair owner hheld
    rw [alone, after, call_subscribe_shared false (.inl rfl), after] at hheld
    rcases holds_enter.mp hheld with ⟨howner, -⟩ | ⟨token, hnone⟩
    · exact howner
    · cases hnone
  intro front rest hcalls pair owner other hown hother
  cases front with
  | nil =>
    obtain ⟨token, hnone⟩ := hown
    cases hnone
  | cons c front =>
    obtain ⟨rfl, hfront⟩ := List.cons.inj hcalls
    obtain ⟨rfl, -⟩ := List.append_eq_nil_iff.mp hfront.symm
    rw [halone pair owner hown, halone pair other hother]

/-- After the release, the first owner is given a token that it did not have. -/
theorem tokens_releaseOfOne :
    tokens hearing false (releaseOfOne ++ alone) {} = [0, 1] := by
  simp only [tokens, releaseOfOne, alone, List.cons_append, List.nil_append, deeds]
  rw [call_subscribe_shared false (.inl rfl)]
  dsimp only
  rw [call_subscribe_shared true (.inr rfl)]
  dsimp only
  rw [call_subscribe_shared false (.inr rfl)]
  rfl

/-- The second of two owners is cut off when the first is released, and the first is given another
token when it subscribes again. An owner alone is not cut off. -/
theorem subscribed_while_held_unless_cut_off_two_owners :
    ((after hearing {} releaseOfOne).Holds true shared ∧
      shared ∉ (after hearing {} releaseOfOne).exchange ∧
      shared ∈ cutOff hearing ∅ releaseOfOne {}) ∧
    tokens hearing false (releaseOfOne ++ alone) {} = List.range 2 ∧
    ∀ pair, pair ∈ (after hearing {} alone).exchange ↔
      ∃ owner, (after hearing {} alone).Holds owner pair := by
  refine ⟨⟨holds_releaseOfOne, notMem_releaseOfOne, ?_⟩, ?_, ?_⟩
  · by_contra hnot
    have hplace := (subscribed_while_held_unless_cut_off hearing releaseOfOne).1 shared
    exact notMem_releaseOfOne (hplace.mpr ⟨⟨true, holds_releaseOfOne⟩, hnot⟩)
  · obtain ⟨n, hn⟩ := (subscribed_while_held_unless_cut_off hearing
      (releaseOfOne ++ alone)).2.2.2 false
    have hlength : 2 = n := by
      rw [← List.length_range (n := n), ← hn, tokens_releaseOfOne]
      rfl
    rw [hn, hlength]
  · exact (subscribed_while_held_unless_cut_off hearing _).2.1 unshared_alone

/-- An owner can hold a subscription that is not in place. -/
theorem held_though_not_subscribed : ¬∀ (calls : List (Call Bool String)) pair,
    pair ∈ (after hearing {} calls).exchange ↔
      ∃ owner, (after hearing {} calls).Holds owner pair := by
  intro hplace
  exact notMem_releaseOfOne ((hplace releaseOfOne shared).mpr ⟨true, holds_releaseOfOne⟩)

end SharedExchange
end TunnelView
