import JsonFilter.Task.Delivery
import Mathlib.Tactic.ByContra

/-!
# A delivery is made once

A producer and a consumer share a delivery, and each of them acts whenever it is its turn.  This file
shows what the consumer learns, and which wakers are woken, in every order of their steps.

## The two parties

The producer has two steps: it settles the delivery, and then it wakes the waker that it found there.
The consumer has a list of inquiries and works them off; a timed wait looks twice, and a wait without a
time looks until it finds something.  `Handover.step` lets one of the parties take its next step, and
`Handover.history` lists what happened, the last first.

## The course of a history

`Course` says how a history goes on: before the delivery is settled every reply is that there is nothing
yet, the next one is the outcome, and all others are cancellations.  It determines every reply
(`Course.reply_eq`), and every step keeps to it (`Keeps.step`).

* **`delivered_once`** — the value comes once, cancellations are told apart from it, nothing is pending
  any more once the delivery is settled, and the right waker is woken once.
-/

namespace JsonFilter.Task

variable {α : Type}

/-! ### The two parties -/

/-- What a consumer asks. -/
inductive Inquiry where
  | isReady
  | poll (waker : Nat)
  | waitTimeout
  | wait
deriving DecidableEq, Repr

/-- What happens in a handover. -/
inductive Happening (α : Type) where
  /-- The producer has settled the delivery. -/
  | settled
  | looked (isReady : Bool)
  | polled (waker : Nat) (reply : Reply α)
  /-- A wait has ended, with a time or without. -/
  | waited (reply : Reply α)
deriving DecidableEq, Repr

/-- Where the producer stands. -/
inductive Producing where
  | notBegun
  /-- The delivery is settled; the waker that was found there is not woken yet. -/
  | waking (waker : Option Nat)
  | done
deriving DecidableEq, Repr

/-- Whose turn it is. -/
inductive Turn where
  | producer
  | consumer
deriving DecidableEq, Repr

/-- A delivery in the hands of a producer and a consumer. -/
structure Handover (α : Type) where
  delivery : Delivery α := {}
  producing : Producing := .notBegun
  /-- What the consumer is about to ask, one after the other. -/
  inquiries : List Inquiry
  /-- Whether the timed wait that comes first has looked in vain once. -/
  hasLooked : Bool := false
  /-- What happened, the last first. -/
  history : List (Happening α) := []
deriving DecidableEq, Repr

/-- What a delivery is settled with: a value, or nothing if the promise is dropped. -/
def Parcel.ofOutcome : Option α → Parcel α
  | some v => .ready v
  | none => .cancelled

/-- What the consumer learns of an outcome. -/
def Reply.ofOutcome : Option α → Reply α
  | some v => .value v
  | none => .cancelled

namespace Handover

/-- The consumer has its answer; without the completion it asks no more. -/
def answer (h : Handover α) (happening : Happening α) (d : Delivery α) (rest : List Inquiry) :
    Handover α :=
  { h with
    delivery := d
    inquiries := if d.hasCompletion then rest else []
    hasLooked := false
    history := happening :: h.history }

/-- The next step of the producer. -/
def produce (outcome : Option α) (h : Handover α) : Handover α :=
  match h.producing with
  | .notBegun =>
    let (waker, d) := h.delivery.settle (.ofOutcome outcome)
    { h with
      delivery := { d with hasPromise := false }
      producing := .waking waker
      history := .settled :: h.history }
  | .waking waker => { h with delivery := h.delivery.wake waker, producing := .done }
  | .done => h

/-- The next step of the consumer. -/
def consume (wakesSame : Nat → Nat → Bool) (h : Handover α) : Handover α :=
  match h.inquiries with
  | [] => h
  | .isReady :: rest => h.answer (.looked h.delivery.isReady) h.delivery rest
  | .poll waker :: rest =>
    let (reply, d) := h.delivery.poll waker wakesSame
    h.answer (.polled waker reply) d rest
  | .waitTimeout :: rest =>
    match h.delivery.takeOr .pending with
    | (.pending, d) =>
      if h.hasLooked then h.answer (.waited .pending) d rest
      else { h with delivery := d, hasLooked := true }
    | (reply, d) => h.answer (.waited reply) d rest
  | .wait :: rest =>
    match h.delivery.takeOr .blocked with
    | (.blocked, d) => { h with delivery := d }
    | (reply, d) => h.answer (.waited reply) d rest

/-- The handover after a turn. -/
def step (wakesSame : Nat → Nat → Bool) (outcome : Option α) (h : Handover α) : Turn → Handover α
  | .producer => h.produce outcome
  | .consumer => h.consume wakesSame

/-- The handover after some turns. -/
def run (wakesSame : Nat → Nat → Bool) (outcome : Option α) (h : Handover α) (turns : List Turn) :
    Handover α :=
  turns.foldl (step wakesSame outcome) h

end Handover

/-! ### The course of a history -/

/-- How far a delivery has come. -/
inductive Phase where
  | pending
  | settled
  | delivered
deriving DecidableEq, Repr

namespace Phase

/-- What lies there in a phase. -/
def parcel (outcome : Option α) : Phase → Parcel α
  | .pending => .pending
  | .settled => .ofOutcome outcome
  | .delivered => .taken

/-- What the consumer learns in a phase. -/
def reply (outcome : Option α) : Phase → Reply α
  | .pending => .pending
  | .settled => .ofOutcome outcome
  | .delivered => .cancelled

/-- The phase after the consumer has learned what there is. -/
def next : Phase → Phase
  | .pending => .pending
  | .settled | .delivered => .delivered

theorem next_eq_pending {phase : Phase} : phase.next = .pending ↔ phase = .pending := by
  cases phase <;> simp [next]

/-- The outcome is something, and so is everything behind it. -/
theorem reply_eq_pending {outcome : Option α} {phase : Phase} :
    phase.reply outcome = .pending ↔ phase = .pending := by
  cases phase <;> cases outcome <;> simp [reply, Reply.ofOutcome]

end Phase

namespace Happening

/-- The reply that the consumer got. -/
def reply? : Happening α → Option (Reply α)
  | .polled _ reply | .waited reply => some reply
  | .settled | .looked _ => none

/-- The consumer learned how the delivery ended. -/
def Delivers (happening : Happening α) : Prop :=
  ∃ reply, happening.reply? = some reply ∧ reply ≠ .pending

/-- The value that the consumer got. -/
def value? (happening : Happening α) : Option α :=
  match happening.reply? with
  | some (.value v) => some v
  | _ => none

/-- The waker of a poll that found nothing yet. -/
def leftWaker? : Happening α → Option Nat
  | .polled waker .pending => some waker
  | _ => none

end Happening

/-- The values that the consumer got, the last first. -/
def valuesOf (history : List (Happening α)) : List α := history.filterMap Happening.value?

/-- The wakers of the polls that found nothing yet, the last first. -/
def leftWakers (history : List (Happening α)) : List Nat := history.filterMap Happening.leftWaker?

/-- **How a history goes on.**  Every reply is the one of its phase and leads to the next one. -/
inductive Course (outcome : Option α) : Phase → List (Happening α) → Prop
  | start : Course outcome .pending []
  | settled {past} (h : Course outcome .pending past) : Course outcome .settled (.settled :: past)
  | looked {phase past} (h : Course outcome phase past) :
    Course outcome phase (.looked (phase != .pending) :: past)
  | replied {phase past happening} (h : Course outcome phase past)
    (hreply : happening.reply? = some (phase.reply outcome)) :
    Course outcome phase.next (happening :: past)

namespace Course

variable {outcome : Option α} {phase : Phase} {past later earlier : List (Happening α)}
  {happening : Happening α}

/-- What came before took its course, too. -/
theorem suffix (h : Course outcome phase (later ++ past)) : ∃ phase', Course outcome phase' past := by
  induction later generalizing phase with
  | nil => exact ⟨phase, h⟩
  | cons happening later ih =>
    cases h with
    | settled h => exact ih h
    | looked h => exact ih h
    | replied h _ => exact ih h

/-- The delivery is pending until it is settled. -/
theorem pending_iff (h : Course outcome phase past) : phase = .pending ↔ .settled ∉ past := by
  induction h with
  | start => simp
  | settled h ih => simp
  | looked h ih => simp [ih]
  | @replied phase past happening h hreply ih =>
    have hne : .settled ≠ happening := by
      rintro rfl
      cases hreply
    rw [Phase.next_eq_pending, ih, List.mem_cons, not_or]
    exact (and_iff_right hne).symm

/-- It is delivered as soon as the consumer has learned how it ended. -/
theorem delivered_iff (h : Course outcome phase past) :
    phase = .delivered ↔ ∃ happening ∈ past, happening.Delivers := by
  induction h with
  | start => simp
  | settled h ih => simpa [Happening.Delivers, Happening.reply?] using ih
  | looked h ih => simpa [Happening.Delivers, Happening.reply?] using ih
  | @replied phase past happening h hreply ih =>
    have hdelivers : happening.Delivers ↔ phase ≠ .pending := by
      unfold Happening.Delivers
      rw [hreply]
      simp [Phase.reply_eq_pending]
    simp only [List.mem_cons, exists_eq_or_imp, hdelivers, ← ih]
    cases phase <;> simp [Phase.next]

/-- **Every reply is determined** by what happened before it. -/
theorem reply_eq (h : Course outcome phase (later ++ happening :: earlier)) {reply : Reply α}
    (hreply : happening.reply? = some reply) :
    (.settled ∉ earlier → reply = .pending) ∧
      (.settled ∈ earlier → (∀ d ∈ earlier, ¬d.Delivers) → reply = .ofOutcome outcome) ∧
      ((∃ d ∈ earlier, d.Delivers) → reply = .cancelled) := by
  obtain ⟨phase', h'⟩ := h.suffix
  cases h' with
  | settled h' => cases hreply
  | looked h' => cases hreply
  | @replied phase past happening h' hphase =>
    rw [hphase, Option.some.injEq] at hreply
    subst hreply
    refine ⟨fun hnot => ?_, fun hsettled hnone => ?_, fun hsome => ?_⟩
    · rw [h'.pending_iff.2 hnot]
      rfl
    · have hpending : phase ≠ .pending := fun hp => h'.pending_iff.1 hp hsettled
      have hdelivered : phase ≠ .delivered := by
        intro hd
        obtain ⟨d, hd, hdelivers⟩ := h'.delivered_iff.1 hd
        exact hnone d hd hdelivers
      obtain rfl : phase = .settled := by
        cases phase with
        | pending => exact absurd rfl hpending
        | settled => rfl
        | delivered => exact absurd rfl hdelivered
      rfl
    · rw [h'.delivered_iff.2 hsome]
      rfl

/-- **The value comes once,** and it is the one that the producer has given. -/
theorem values_eq (h : Course outcome phase past) :
    valuesOf past = if phase = .delivered then outcome.toList else [] := by
  induction h with
  | start => rfl
  | settled h ih => exact ih
  | looked h ih => exact ih
  | @replied phase past happening h hreply ih =>
    have hvalue : happening.value? = if phase = .settled then outcome else none := by
      unfold Happening.value?
      rw [hreply]
      cases phase <;> cases outcome <;> rfl
    unfold valuesOf at ih ⊢
    rw [List.filterMap_cons, hvalue, ih]
    cases phase <;> cases outcome <;> rfl

/-- The consumer has got no value, or the one that the producer has given, once. -/
theorem values_cases (h : Course outcome phase past) :
    valuesOf past = [] ∨ ∃ v, outcome = some v ∧ .settled ∈ past ∧ valuesOf past = [v] := by
  rw [h.values_eq]
  split
  · rename_i hdelivered
    cases outcome with
    | none => exact .inl rfl
    | some v =>
      refine .inr ⟨v, rfl, ?_, rfl⟩
      by_contra hsettled
      rw [h.pending_iff.2 hsettled] at hdelivered
      cases hdelivered
  · exact .inl rfl

/-- The first thing that the consumer learns is a cancellation only if the promise was dropped. -/
theorem dropped_of_cancelled (h : Course outcome phase (later ++ happening :: earlier))
    (hreply : happening.reply? = some .cancelled) (hnone : ∀ d ∈ earlier, ¬d.Delivers) :
    .settled ∈ earlier ∧ outcome = none := by
  obtain ⟨hpending, hfirst, -⟩ := h.reply_eq hreply
  by_cases hsettled : .settled ∈ earlier
  · refine ⟨hsettled, ?_⟩
    cases outcome with
    | none => rfl
    | some v => cases hfirst hsettled hnone
  · cases hpending hsettled

/-- Once the delivery is settled, the consumer learns something from every reply. -/
theorem reply_ne_pending (h : Course outcome phase (later ++ happening :: earlier))
    {reply : Reply α} (hreply : happening.reply? = some reply) (hsettled : .settled ∈ earlier) :
    reply ≠ .pending := by
  obtain ⟨-, hfirst, hagain⟩ := h.reply_eq hreply
  by_cases hsome : ∃ d ∈ earlier, d.Delivers
  · rw [hagain hsome]
    simp
  · rw [hfirst hsettled fun d hd hdelivers => hsome ⟨d, hd, hdelivers⟩]
    cases outcome <;> simp [Reply.ofOutcome]

/-- Only before the delivery is settled are wakers left. -/
theorem leftWaker?_eq_none (hphase : phase ≠ .pending)
    (hreply : happening.reply? = some (phase.reply outcome)) : happening.leftWaker? = none := by
  cases happening with
  | polled waker reply =>
    obtain rfl : reply = phase.reply outcome := by simpa [Happening.reply?] using hreply
    cases hp : phase.reply outcome with
    | pending => exact absurd (Phase.reply_eq_pending.1 hp) hphase
    | _ => rfl
  | _ => rfl

end Course

/-! ### What every step keeps -/

/-- The waker that stands for the wakers that were left: the last one, or one that was left before and
wakes the same. -/
def Stands (wakesSame : Nat → Nat → Bool) : List Nat → Option Nat → Prop
  | [], waker => waker = none
  | last :: before, waker =>
    ∃ w, waker = some w ∧ (w = last ∨ w ∈ before ∧ wakesSame w last = true)

/-- One more waker is offered. -/
theorem Stands.registered {wakesSame : Nat → Nat → Bool} {left : List Nat} {old : Option Nat}
    (h : Stands wakesSame left old) (new : Nat) :
    Stands wakesSame (new :: left) (Delivery.registered wakesSame old new) := by
  cases left with
  | nil =>
    obtain rfl : old = none := h
    exact ⟨new, rfl, .inl rfl⟩
  | cons last before =>
    obtain ⟨w, rfl, hw⟩ := h
    have hmem : w ∈ last :: before := by
      rcases hw with rfl | ⟨hw, -⟩
      · exact List.mem_cons_self
      · exact List.mem_cons_of_mem _ hw
    unfold Delivery.registered
    dsimp only
    split
    · rename_i hsame
      exact ⟨w, rfl, .inr ⟨hmem, hsame⟩⟩
    · exact ⟨new, rfl, .inl rfl⟩

namespace Delivery

variable {outcome : Option α} {phase : Phase} {d : Delivery α}

/-- Taking gives the reply of the phase. -/
theorem take_eq (h : d.parcel = phase.parcel outcome) :
    d.take = (phase.reply outcome, { d with parcel := phase.next.parcel outcome }) := by
  have htake : { d with parcel := phase.parcel outcome } = d := by rw [← h]
  unfold take
  rw [h]
  cases phase with
  | pending => exact congrArg (Prod.mk _) htake.symm
  | settled => cases outcome <;> rfl
  | delivered => exact congrArg (Prod.mk _) htake.symm

theorem isReady_eq (h : d.parcel = phase.parcel outcome) : d.isReady = (phase != .pending) := by
  unfold isReady
  rw [h]
  cases phase <;> cases outcome <;> rfl

/-- A poll gives the reply of the phase; one that finds nothing yet offers its waker. -/
theorem poll_eq (h : d.parcel = phase.parcel outcome) (hcompletion : d.hasCompletion = true)
    (waker : Nat) (wakesSame : Nat → Nat → Bool) :
    d.poll waker wakesSame =
      (phase.reply outcome,
        { d with
          parcel := phase.next.parcel outcome
          waker := if phase = .pending then registered wakesSame d.waker waker else d.waker }) := by
  unfold poll
  rw [if_pos hcompletion, take_eq h]
  cases phase <;> cases outcome <;> rfl

/-- A look finds nothing yet, or it gives the reply of the phase and gives the completion up. -/
theorem takeOr_eq (h : d.parcel = phase.parcel outcome) (hcompletion : d.hasCompletion = true)
    (otherwise : Reply α) :
    d.takeOr otherwise =
      if phase = .pending then (otherwise, d)
      else (phase.reply outcome,
        { d with parcel := phase.next.parcel outcome, hasCompletion := false }) := by
  unfold takeOr
  rw [if_pos hcompletion, take_eq h]
  cases phase with
  | pending =>
    have htake : { d with parcel := .pending } = d := by rw [← show d.parcel = .pending from h]
    exact congrArg (Prod.mk _) htake
  | settled => cases outcome <;> rfl
  | delivered => rfl

end Delivery

namespace Handover

/-- Where the waker is that stands for those that were left: with the delivery, in the hands of the
producer, or woken. -/
def WakerIn (wakesSame : Nat → Nat → Bool) (h : Handover α) : Prop :=
  match h.producing with
  | .notBegun => Stands wakesSame (leftWakers h.history) h.delivery.waker ∧ h.delivery.woken = []
  | .waking waker => Stands wakesSame (leftWakers h.history) waker ∧ h.delivery.woken = []
  | .done =>
    ∃ waker, Stands wakesSame (leftWakers h.history) waker ∧ h.delivery.woken = waker.toList

/-- **The invariant of a handover.**  The delivery is in the phase to which the history has led. -/
structure Keeps (wakesSame : Nat → Nat → Bool) (outcome : Option α) (phase : Phase)
    (h : Handover α) : Prop where
  course : Course outcome phase h.history
  parcel : h.delivery.parcel = phase.parcel outcome
  producing : phase = .pending ↔ h.producing = .notBegun
  completion : h.inquiries ≠ [] → h.delivery.hasCompletion = true
  waker : h.WakerIn wakesSame

/-- All is still to be done. -/
def start (inquiries : List Inquiry) : Handover α := { inquiries }

section Steps

variable {wakesSame : Nat → Nat → Bool} {outcome : Option α} {phase : Phase} {h : Handover α}

theorem start_keeps (inquiries : List Inquiry) :
    (start inquiries : Handover α).Keeps wakesSame outcome .pending where
  course := .start
  parcel := rfl
  producing := iff_of_true rfl rfl
  completion _ := rfl
  waker := ⟨rfl, rfl⟩

/-- The producer settles the delivery once and wakes the waker that it found there. -/
theorem Keeps.produce (hk : h.Keeps wakesSame outcome phase) :
    ∃ phase', (h.produce outcome).Keeps wakesSame outcome phase' := by
  have hwaker := hk.waker
  unfold WakerIn at hwaker
  cases hp : h.producing with
  | notBegun =>
    obtain rfl : phase = .pending := hk.producing.2 hp
    rw [hp] at hwaker
    have hsettle : h.delivery.settle (.ofOutcome outcome) =
        (h.delivery.waker, { h.delivery with parcel := .ofOutcome outcome, waker := none }) := by
      unfold Delivery.settle
      rw [Delivery.isReady_eq hk.parcel]
      rfl
    unfold Handover.produce
    rw [hp, hsettle]
    exact ⟨.settled, .settled hk.course, rfl, by simp, hk.completion, hwaker⟩
  | waking waker =>
    rw [hp] at hwaker
    obtain ⟨hstands, hwoken⟩ := hwaker
    unfold Handover.produce
    rw [hp]
    refine ⟨phase, hk.course, hk.parcel, ?_, hk.completion, waker, hstands, ?_⟩
    · rw [hk.producing, hp]
      simp
    · show h.delivery.woken ++ waker.toList = _
      rw [hwoken, List.nil_append]
  | done =>
    unfold Handover.produce
    rw [hp]
    exact ⟨phase, hk⟩

/-- An answer that changes nothing of the delivery but its parcel, its completion, and the waker that
is left in it. -/
theorem Keeps.answer (hk : h.Keeps wakesSame outcome phase) {phase' : Phase}
    {happening : Happening α} {d : Delivery α} (rest : List Inquiry)
    (hcourse : Course outcome phase' (happening :: h.history))
    (hphase : phase' = .pending ↔ phase = .pending) (hparcel : d.parcel = phase'.parcel outcome)
    (hwaker : (h.answer happening d rest).WakerIn wakesSame) :
    (h.answer happening d rest).Keeps wakesSame outcome phase' where
  course := hcourse
  parcel := hparcel
  producing := hphase.trans hk.producing
  completion hne := by
    cases hcompletion : d.hasCompletion with
    | true => exact hcompletion
    | false => exact absurd (if_neg (by rw [hcompletion]; exact Bool.false_ne_true)) hne
  waker := hwaker

/-- Where the waker is does not change if no waker is left. -/
theorem WakerIn.answer (hw : h.WakerIn wakesSame) {happening : Happening α} {d : Delivery α}
    (rest : List Inquiry) (hleft : happening.leftWaker? = none)
    (hwaker : d.waker = h.delivery.waker) (hwoken : d.woken = h.delivery.woken) :
    (h.answer happening d rest).WakerIn wakesSame := by
  have hhistory : leftWakers (happening :: h.history) = leftWakers h.history := by
    unfold leftWakers
    rw [List.filterMap_cons, hleft]
  unfold WakerIn Handover.answer at *
  dsimp only
  rw [hhistory, hwaker, hwoken]
  exact hw

/-- No waker is woken before the producer is done. -/
theorem WakerIn.woken_eq_nil (hw : h.WakerIn wakesSame) (hnot : h.producing ≠ .done) :
    h.delivery.woken = [] := by
  unfold WakerIn at hw
  cases hp : h.producing with
  | notBegun | waking =>
    rw [hp] at hw
    exact hw.2
  | done => exact absurd hp hnot

/-- When the producer is done, the waker that stands for those that were left has been woken. -/
theorem WakerIn.woken_of_done (hw : h.WakerIn wakesSame) (hdone : h.producing = .done) :
    (leftWakers h.history = [] → h.delivery.woken = []) ∧
      ∀ last before, leftWakers h.history = last :: before →
        ∃ w, h.delivery.woken = [w] ∧ (w = last ∨ w ∈ before ∧ wakesSame w last = true) := by
  unfold WakerIn at hw
  rw [hdone] at hw
  obtain ⟨waker, hstands, hwoken⟩ := hw
  refine ⟨fun hleft => ?_, fun last before hleft => ?_⟩
  · rw [hleft] at hstands
    rw [hwoken, show waker = none from hstands]
    rfl
  · rw [hleft] at hstands
    obtain ⟨w, rfl, hw⟩ := hstands
    exact ⟨w, hwoken, hw⟩

/-- Once the delivery is settled, the next turn of a wait ends it. -/
theorem Keeps.consume_wait (hk : h.Keeps wakesSame outcome phase) (hphase : phase ≠ .pending)
    {inquiry : Inquiry} {rest : List Inquiry} (hinquiries : h.inquiries = inquiry :: rest)
    (hinquiry : inquiry = .wait ∨ inquiry = .waitTimeout) :
    h.consume wakesSame = h.answer (.waited (phase.reply outcome))
      { h.delivery with parcel := phase.next.parcel outcome, hasCompletion := false } rest := by
  have hcompletion := hk.completion (by rw [hinquiries]; exact List.cons_ne_nil _ _)
  have htake := fun otherwise => Delivery.takeOr_eq hk.parcel hcompletion otherwise
  simp only [if_neg hphase] at htake
  unfold Handover.consume
  rw [hinquiries]
  rcases hinquiry with rfl | rfl
  all_goals
    dsimp only
    rw [htake]
    cases phase with
    | pending => exact absurd rfl hphase
    | settled => cases outcome <;> rfl
    | delivered => rfl

/-- Once the delivery is settled, every inquiry is answered in the next turn of the consumer. -/
theorem Keeps.answered (hk : h.Keeps wakesSame outcome phase) (hphase : phase ≠ .pending)
    {inquiry : Inquiry} {rest : List Inquiry} (hinquiries : h.inquiries = inquiry :: rest) :
    ∃ happening, (h.consume wakesSame).history = happening :: h.history := by
  cases inquiry with
  | isReady | poll =>
    unfold Handover.consume
    rw [hinquiries]
    exact ⟨_, rfl⟩
  | waitTimeout => exact ⟨_, by rw [hk.consume_wait hphase hinquiries (.inr rfl)]; rfl⟩
  | wait => exact ⟨_, by rw [hk.consume_wait hphase hinquiries (.inl rfl)]; rfl⟩

/-- **Every turn of the consumer keeps to the course.** -/
theorem Keeps.consume (hk : h.Keeps wakesSame outcome phase) :
    ∃ phase', (h.consume wakesSame).Keeps wakesSame outcome phase' := by
  cases hinquiries : h.inquiries with
  | nil =>
    unfold Handover.consume
    rw [hinquiries]
    exact ⟨phase, hk⟩
  | cons inquiry rest =>
    have hcompletion := hk.completion (by rw [hinquiries]; exact List.cons_ne_nil _ _)
    -- a wait that finds something
    have hwait : phase ≠ .pending → inquiry = .wait ∨ inquiry = .waitTimeout →
        ∃ phase', (h.consume wakesSame).Keeps wakesSame outcome phase' := by
      intro hphase hinquiry
      rw [hk.consume_wait hphase hinquiries hinquiry]
      exact ⟨phase.next, hk.answer rest (.replied hk.course rfl) Phase.next_eq_pending rfl
        (hk.waker.answer rest rfl rfl rfl)⟩
    cases inquiry with
    | isReady =>
      unfold Handover.consume
      rw [hinquiries]
      dsimp only
      rw [Delivery.isReady_eq hk.parcel]
      exact ⟨phase, hk.answer rest (.looked hk.course) Iff.rfl hk.parcel
        (hk.waker.answer rest rfl rfl rfl)⟩
    | poll waker =>
      unfold Handover.consume
      rw [hinquiries]
      dsimp only
      rw [Delivery.poll_eq hk.parcel hcompletion]
      refine ⟨phase.next, hk.answer rest (.replied hk.course rfl) Phase.next_eq_pending rfl ?_⟩
      by_cases hphase : phase = .pending
      · -- the waker is left with the delivery
        subst hphase
        have hw := hk.waker
        unfold WakerIn at hw ⊢
        have hp : h.producing = .notBegun := hk.producing.1 rfl
        rw [hp] at hw
        unfold Handover.answer
        rw [hp]
        exact ⟨hw.1.registered waker, hw.2⟩
      · exact hk.waker.answer rest (Course.leftWaker?_eq_none hphase rfl) (if_neg hphase) rfl
    | waitTimeout =>
      by_cases hphase : phase = .pending
      · subst hphase
        unfold Handover.consume
        rw [hinquiries]
        dsimp only
        rw [Delivery.takeOr_eq hk.parcel hcompletion, if_pos rfl]
        dsimp only
        split
        · exact ⟨.pending, hk.answer rest (.replied hk.course rfl) Iff.rfl hk.parcel
            (hk.waker.answer rest rfl rfl rfl)⟩
        · exact ⟨.pending, hk.course, hk.parcel, hk.producing, fun _ => hcompletion, hk.waker⟩
      · exact hwait hphase (.inr rfl)
    | wait =>
      by_cases hphase : phase = .pending
      · subst hphase
        unfold Handover.consume
        rw [hinquiries]
        dsimp only
        rw [Delivery.takeOr_eq hk.parcel hcompletion, if_pos rfl]
        exact ⟨.pending, hk.course, hk.parcel, hk.producing, fun _ => hcompletion, hk.waker⟩
      · exact hwait hphase (.inl rfl)

/-- **Every turn keeps to the course.** -/
theorem Keeps.step (hk : h.Keeps wakesSame outcome phase) (turn : Turn) :
    ∃ phase', (h.step wakesSame outcome turn).Keeps wakesSame outcome phase' := by
  cases turn with
  | producer => exact hk.produce
  | consumer => exact hk.consume

/-- **Every handover keeps to the course.** -/
theorem Keeps.run (hk : h.Keeps wakesSame outcome phase) (turns : List Turn) :
    ∃ phase', (h.run wakesSame outcome turns).Keeps wakesSame outcome phase' := by
  induction turns generalizing phase h with
  | nil => exact ⟨phase, hk⟩
  | cons turn turns ih =>
    obtain ⟨phase', hk'⟩ := hk.step turn
    exact ih hk'

end Steps

/-- **A delivery is made once.**  A producer that fulfils its promise with a value or drops it, and a
consumer with any inquiries, take their steps in any order.  Then the consumer gets a value at most
once, and only the one that the producer has given.  A cancellation before anything was delivered means
that the promise was dropped.  After a delivery every reply is a cancellation.  Once the producer has
settled the delivery no reply is that there is nothing yet; the first one is the outcome, and every
inquiry is answered in its next turn.  And when the producer is done, just one waker was woken if a poll
found nothing: that of the last such poll, or one that was left before and wakes the same. -/
theorem delivered_once (wakesSame : Nat → Nat → Bool) (outcome : Option α)
    (inquiries : List Inquiry) (turns : List Turn) :
    let h := (start inquiries).run wakesSame outcome turns
    (valuesOf h.history = [] ∨
        ∃ v, outcome = some v ∧ .settled ∈ h.history ∧ valuesOf h.history = [v]) ∧
      (∀ later happening earlier, h.history = later ++ happening :: earlier →
        ∀ reply, happening.reply? = some reply →
          (reply = .cancelled → (∀ d ∈ earlier, ¬d.Delivers) →
            .settled ∈ earlier ∧ outcome = none) ∧
          ((∃ d ∈ earlier, d.Delivers) → reply = .cancelled) ∧
          (.settled ∈ earlier → reply ≠ .pending) ∧
          (.settled ∈ earlier → (∀ d ∈ earlier, ¬d.Delivers) → reply = .ofOutcome outcome)) ∧
      (.settled ∈ h.history → ∀ inquiry rest, h.inquiries = inquiry :: rest →
        ∃ happening, (h.step wakesSame outcome .consumer).history = happening :: h.history) ∧
      (h.producing ≠ .done → h.delivery.woken = []) ∧
      (h.producing = .done →
        (leftWakers h.history = [] → h.delivery.woken = []) ∧
        ∀ last before, leftWakers h.history = last :: before →
          ∃ w, h.delivery.woken = [w] ∧ (w = last ∨ w ∈ before ∧ wakesSame w last = true)) := by
  intro h
  obtain ⟨phase, hk⟩ : ∃ phase, h.Keeps wakesSame outcome phase :=
    (start_keeps inquiries).run turns
  refine ⟨hk.course.values_cases, ?_, ?_, hk.waker.woken_eq_nil, hk.waker.woken_of_done⟩
  · intro later happening earlier hhistory reply hreply
    have hcourse := hk.course
    rw [hhistory] at hcourse
    obtain ⟨-, hfirst, hagain⟩ := hcourse.reply_eq hreply
    refine ⟨?_, hagain, hcourse.reply_ne_pending hreply, hfirst⟩
    rintro rfl hnone
    exact hcourse.dropped_of_cancelled hreply hnone
  · intro hsettled inquiry rest hinquiries
    have hphase : phase ≠ .pending := fun hp => hk.course.pending_iff.1 hp hsettled
    exact hk.answered hphase hinquiries

end Handover

end JsonFilter.Task
