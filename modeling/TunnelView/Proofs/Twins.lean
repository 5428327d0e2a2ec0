import TunnelView.Proofs.Abreast.Link

/-!
# Two runs side by side

What a view does depends on the clock and on the view itself, but not on what stands around it: who
owns it, which events were recorded, and how the failures of code outside came about that are held
back. So two runs of the same operations, from two worlds with one clock and one view, end in the
same way in two such worlds again, as long as what stands around them stays related and code outside
looks the same from behind its guard.

Such worlds are abreast, where a status may stand for itself only.

Key definitions: `Beside`, `Twins`, `Sociable`.
Key theorems: `beside_iff_abreast`, `Beside.op`, `Beside.everyOp`.
-/

namespace TunnelView

variable {τ ο ο' σ σ' α β : Type}

/-- Two worlds with one clock and one view, around which things are related. -/
structure Beside (Q : Around τ ο ο') (w : World τ ο) (w' : World τ ο') : Prop where
  clock : w.clock = w'.clock
  view : w.rest.view = w'.rest.view
  around : Q w.rest.owner w.rest.events w'.rest.owner w'.rest.events

/-- Two runs that end in the same way, side by side. -/
structure Twins (Q : Around τ ο ο') (r : Except (Stop τ) α × World τ ο)
    (r' : Except (Stop τ) α × World τ ο') : Prop where
  outcome : r.1 = r'.1
  beside : Beside Q r.2 r'.2

/-- Code outside that looks the same from behind the guard around it. -/
def Outside.Resembles (Q : Around τ ο ο') (out : Outside τ ο) (out' : Outside τ ο') : Prop :=
  ∀ s {w w'}, Beside Q w w' → Twins Q (guarded (View.showing.settle ()) (out.present s) w)
    (guarded (View.showing.settle ()) (out'.present s) w')

namespace Twins

variable {Q : Around τ ο ο'} {w : World τ ο} {w' : World τ ο'}

theorem stop (h : Beside Q w w') (s : Stop τ) :
    Twins Q ((.stop s : Run τ ο α) w) ((.stop s : Run τ ο' α) w') :=
  ⟨rfl, h⟩

variable (hnote : ∀ {o e o' e'} (n : Note τ), Q o e o' e' → Q o (.log n :: e) o' (.log n :: e'))

include hnote

/-- A guard leaves the same notes of the same outcome. -/
theorem guarded {m : Run τ ο α} {k : Run τ ο' α}
    (settle : Except (Stop τ) α → List (Note τ) × Except (Stop τ) α) (h : Twins Q (m w) (k w')) :
    Twins Q (TunnelView.guarded settle m w) (TunnelView.guarded settle k w') := by
  obtain ⟨houtcome, hbeside⟩ := h
  have hnotes : ∀ (notes : List (Note τ)) {w w'}, Beside Q w w' →
      Beside Q (notes.foldl (fun w n => w.record (.log n)) w)
        (notes.foldl (fun w n => w.record (.log n)) w') := by
    intro notes
    induction notes with
    | nil => exact fun h => h
    | cons n notes ih => exact fun h => ih ⟨h.clock, h.view, hnote n h.around⟩
  refine ⟨congrArg (fun r => (settle r).2) houtcome, ?_⟩
  show Beside Q ((settle (m w).1).1.foldl _ (m w).2) ((settle (k w').1).1.foldl _ (k w').2)
  rw [houtcome]
  exact hnotes _ hbeside

end Twins

/-- What is asked of things around two clients: both have the same link and the same policy, and
may change the link and record notes. -/
structure Sociable (Q : Around τ (Client σ) (Client σ')) : Prop where
  note : ∀ {c e c' e'} (n : Note τ), Q c e c' e' → Q c (.log n :: e) c' (.log n :: e')
  same : ∀ {c e c' e'}, Q c e c' e' → c.link = c'.link
  policy : ∀ {c e c' e'}, Q c e c' e' → c.policy = c'.policy
  link : ∀ {c e c' e'} (f : Link → Link), Q c e c' e' →
    Q { c with link := c.link.map f } e { c' with link := c'.link.map f } e'

/-! ### Side by side is abreast -/

theorem rel_eq_iff {a a' : Option α} : Option.Rel Eq a a' ↔ a = a' := by
  constructor
  · rintro (h | _)
    · rw [h]
    · rfl
  · rintro rfl
    cases a with
    | none => exact .none
    | some a => exact .some rfl

theorem kindred_eq : Kindred Eq where
  condition h := congrArg Status.condition h
  assumption _ := rfl

theorem Op.Alike.refl (op : Op τ) : op.Alike Eq Eq op := by
  have hreport : ∀ r : Report, r.Alike Eq Eq r := fun r => by
    unfold Report.Alike
    cases r.read with
    | error fault => exact ⟨rfl, rfl⟩
    | ok s => rfl
  cases op with
  | notify r =>
    cases hr : r.read with
    | error f => exact .unreadable hr
    | ok s => exact .notify hr hr rfl
  | handle r => exact .handle (hreport r)
  | publish r => exact .publish (hreport r)
  | _ => exact .same rfl

theorem Sociable.courteous {Q : Around τ (Client σ) (Client σ')} (hQ : Sociable Q) :
    Courteous Eq Eq Q where
  note {_ _ _ _ n n'} hn h := by
    obtain rfl : n = n' := by
      cases hn <;> simp_all [rel_eq_iff]
    exact hQ.note n h
  same := hQ.same
  policy := hQ.policy
  link := hQ.link

section Same

variable {Q : Around τ ο ο'} {w : World τ ο} {w' : World τ ο'}

theorem Timer.eq_of_alike {t t' : Timer τ Alarm} (h : t.Alike Eq t') : t = t' := by
  obtain ⟨deadline, serial, call⟩ := t
  obtain ⟨deadline', serial', call'⟩ := t'
  obtain ⟨rfl, rfl, hcall⟩ := h
  cases hcall with
  | deferred h => rw [h]
  | giveUp => rfl

theorem Clock.alike_eq_iff {c c' : Clock τ Alarm} : c.Alike Eq c' ↔ c = c' := by
  constructor
  · obtain ⟨now, timers, next, ordered, heap⟩ := c
    obtain ⟨now', timers', next', ordered', heap'⟩ := c'
    rintro ⟨rfl, htimers, rfl, rfl, rfl⟩
    have heq : timers = timers' :=
      List.forall₂_eq_eq_eq ▸ htimers.imp fun _ _ h => Timer.eq_of_alike h
    rw [heq]
  · rintro rfl
    have hcall : ∀ a : Alarm, a.Alike Eq a := fun a => by
      cases a with
      | deferred s => exact .deferred rfl
      | giveUp => exact .giveUp
    exact ⟨rfl, List.forall₂_same.mpr fun t _ => ⟨rfl, rfl, hcall t.call⟩, rfl, rfl, rfl⟩

theorem View.alike_eq_iff {v v' : View τ} : v.Alike Eq v' ↔ v = v' := by
  constructor
  · obtain ⟨delays, lastActed, status, fallback, closed, deferral, timeout⟩ := v
    obtain ⟨delays', lastActed', status', fallback', closed', deferral', timeout'⟩ := v'
    rintro ⟨rfl, rfl, rfl, hfallback, rfl, rfl, rfl⟩
    obtain rfl : fallback = fallback' := rel_eq_iff.mp hfallback
    rfl
  · rintro rfl
    exact ⟨rfl, rfl, rfl, rel_eq_iff.mpr rfl, rfl, rfl, rfl⟩

theorem beside_iff_abreast : Beside Q w w' ↔ Abreast Eq Q w w' :=
  ⟨fun h => ⟨Clock.alike_eq_iff.mpr h.clock, View.alike_eq_iff.mpr h.view, h.around⟩,
    fun h => ⟨Clock.alike_eq_iff.mp h.clock, View.alike_eq_iff.mp h.view, h.around⟩⟩

theorem twins_iff_inStep {r : Except (Stop τ) α × World τ ο} {r' : Except (Stop τ) α × World τ ο'} :
    Twins Q r r' ↔ InStep Eq Eq Q r r' := by
  constructor
  · rintro ⟨houtcome, hbeside⟩
    refine ⟨?_, beside_iff_abreast.mp hbeside⟩
    rw [houtcome]
    cases r'.1 with
    | error s => exact .error s
    | ok a => exact .ok rfl
  · exact fun h => ⟨h.outcome.eq, beside_iff_abreast.mpr h.abreast⟩

/-- Twins go on from where they end, to whatever is said of two results. -/
theorem Twins.bind_to {P : Except (Stop τ) β × World τ ο → Except (Stop τ) β × World τ ο' → Prop}
    {x : Run τ ο α} {x' : Run τ ο' α} {k : α → Run τ ο β} {k' : α → Run τ ο' β}
    (hx : Twins Q (x w) (x' w'))
    (hstop : ∀ stop {w₁ w₁'}, Beside Q w₁ w₁' → P (.error stop, w₁) (.error stop, w₁'))
    (hk : ∀ a {w₁ w₁'}, Beside Q w₁ w₁' → P (k a w₁) (k' a w₁')) :
    P ((x >>= k) w) ((x' >>= k') w') :=
  (twins_iff_inStep.mp hx).bind_to (fun stop _ _ h => hstop stop (beside_iff_abreast.mpr h))
    fun {a _} ha _ _ h => ha ▸ hk a (beside_iff_abreast.mpr h)

theorem Outside.Resembles.parallels {out : Outside τ ο} {out' : Outside τ ο'}
    (h : out.Resembles Q out') : out.Parallels Eq Q out' := by
  rintro s _ rfl w w' hw
  exact twins_iff_inStep.mp (h s (beside_iff_abreast.mpr hw))

end Same

namespace Beside

variable {Q : Around τ (Client σ) (Client σ')} {w : World τ (Client σ)}
  {w' : World τ (Client σ')} {out : Outside τ (Client σ)} {out' : Outside τ (Client σ')}
  [Zero τ] [Add τ] [LT τ] [DecidableLT τ] [LE τ] [DecidableLE τ]
  (hQ : Sociable Q) (hout : out.Resembles Q out')

include hQ

theorem lose (h : Beside Q w w') : Twins Q (Link.lose w) (Link.lose w') :=
  twins_iff_inStep.mpr ((beside_iff_abreast.mp h).lose hQ.courteous)

theorem tellLink (h : Beside Q w w') :
    Twins Q (TunnelView.tellLink w) (TunnelView.tellLink w') :=
  twins_iff_inStep.mpr ((beside_iff_abreast.mp h).tellLink hQ.courteous)

variable [Sub τ]

include hout

/-- **Operations end in the same way side by side**, user actions apart. -/
theorem op (h : Beside Q w w') (fuel : ℕ) {op : Op τ} (hop : ∀ c, op ≠ .command c) :
    Twins Q (op.run out fuel w) (op.run out' fuel w') :=
  twins_iff_inStep.mpr
    ((beside_iff_abreast.mp h).op kindred_eq hQ.courteous hout.parallels fuel (.refl op) hop)

/-- A user action goes the same way up to the command that it sends, if it sends one. -/
theorem userAction {P : Except (Stop τ) Reply × World τ (Client σ) →
      Except (Stop τ) Reply × World τ (Client σ') → Prop}
    (hsame : ∀ {r r'}, Twins Q r r' → r.1 ≠ .ok (.flag true) → P r r') {c : Command}
    (hsend : ∀ {w w'}, Beside Q w w' → P ((do Link.send out c; return Reply.flag true) w)
      ((do Link.send out' c; return Reply.flag true) w'))
    (h : Beside Q w w') (fuel : ℕ) :
    P ((Op.command c).run out fuel w) ((Op.command c).run out' fuel w') :=
  (beside_iff_abreast.mp h).userAction kindred_eq hQ.courteous hout.parallels
    (fun hr => hsame (twins_iff_inStep.mpr hr)) (fun h => hsend (beside_iff_abreast.mpr h)) fuel

omit hout in
/-- Every operation ends in the same way side by side if every call of code outside does. -/
theorem everyOp
    (hpresent : ∀ s {w w'}, Beside Q w w' → Twins Q (out.present s w) (out'.present s w'))
    (hsend : ∀ c {w w'}, Beside Q w w' → Twins Q (out.send c w) (out'.send c w'))
    (h : Beside Q w w') (fuel : ℕ) (op : Op τ) :
    Twins Q (op.run out fuel w) (op.run out' fuel w') := by
  have hout : out.Resembles Q out' := fun s _ _ h => (hpresent s h).guarded hQ.note _
  refine twins_iff_inStep.mpr ?_
  refine (beside_iff_abreast.mp h).everyOp kindred_eq hQ.courteous hout.parallels ?_ fuel (.refl op)
  exact fun c _ _ h => twins_iff_inStep.mp (hsend c (beside_iff_abreast.mpr h))

end Beside
end TunnelView
