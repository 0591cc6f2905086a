import OpenChess.Jobs.LifeCycle

/-!
# Leases

What the answers of a run say about the leases of a job. Only the worker of the last
claim settles a job, before the lease expires and while nothing has ended the claim. No
clock is assumed: a job is claimed again at the expiry of its lease or later, unless it
was given back.
-/

namespace OpenChess
namespace Jobs

open Growth (Grows)
open Queue (claimable)

def Answer.Leases (worker jobId : Text) (now expires : ℕ) (a : Answer) : Prop :=
  ∃ leaseMs r, a = .queue (.claim worker now leaseMs) r ∧ r.jobId = some jobId ∧
    r.leaseExpiresAt = some expires

def Answer.Settles (worker jobId : Text) (now : ℕ) (a : Answer) : Prop :=
  ∃ r, a = .queue (.ack worker now jobId) r ∨ a = .queue (.nack worker now jobId) r

def Answer.returns (jobId : Text) (a : Answer) : Bool := a.on .nack jobId || a.releases jobId

/-- A settlement is by the worker of the last claim of the job, before that lease expires
and before anything else ends it. -/
def Held (history : List Answer) : Prop :=
  ∀ before a after worker jobId now, history = before ++ a :: after → a.Settles worker jobId now →
    ∃ earlier c between since expires, before = earlier ++ c :: between ∧
      c.Leases worker jobId since expires ∧ now < expires ∧ ∀ b ∈ between, b.touches jobId = false

/-- A job is claimed again when its lease has expired, unless it was made ready before. -/
def Spaced (history : List Answer) : Prop :=
  ∀ before c between d after worker worker' jobId now now' expires expires',
    history = before ++ c :: (between ++ d :: after) → c.Leases worker jobId now expires →
    d.Leases worker' jobId now' expires' → (∀ b ∈ between, b.returns jobId = false) →
    expires ≤ now'

variable {sha : Hex.Hash 64} {s s' : State} {a c : Answer} {j j' k : Job} {t : Trail}
  {history : List Answer} {worker jobId : Text} {now expires : ℕ}

theorem concat_eq_append_cons {α : Type} {l before after : List α} {a x : α} :
    l ++ [a] = before ++ x :: after ↔ (after = [] ∧ l = before ∧ a = x) ∨
      ∃ after', after = after' ++ [a] ∧ l = before ++ x :: after' := by
  constructor
  · intro h
    rcases List.eq_nil_or_concat after with rfl | ⟨after', y, rfl⟩
    · obtain ⟨hl, ha⟩ := List.append_inj' h rfl
      exact .inl ⟨rfl, hl, List.singleton_inj.mp ha⟩
    · rw [List.concat_eq_append, ← List.cons_append, ← List.append_assoc] at h
      obtain ⟨hl, ha⟩ := List.append_inj' h rfl
      obtain rfl := List.singleton_inj.mp ha
      exact .inr ⟨after', List.concat_eq_append, hl⟩
  · intro h
    rcases h with ⟨rfl, rfl, rfl⟩ | ⟨after', rfl, rfl⟩
    · rfl
    · rw [List.append_assoc, List.cons_append]

/-! ### What the answers say about one job -/

/-- The record of a job in the answers so far. -/
structure Told (history : List Answer) (j : Job) : Prop where
  acks : history.countP (Answer.on .ack j.jobId) = if j.status = .done then 1 else 0
  lease : j.status = .leased → ∃ earlier c between worker now expires,
    history = earlier ++ c :: between ∧ c.Leases worker j.jobId now expires ∧
      j.leaseOwner = some worker ∧ j.leaseExpiresAt = some expires ∧
      ∀ b ∈ between, b.touches j.jobId = false
  expiry : ∀ earlier c between worker now expires, history = earlier ++ c :: between →
    c.Leases worker j.jobId now expires → (∀ b ∈ between, b.returns j.jobId = false) →
      j.final ∨ ∃ later, j.leaseExpiresAt = some later ∧ j.status = .leased ∧ expires ≤ later

theorem Answer.Leases.touches (h : a.Leases worker jobId now expires) : a.touches jobId = true := by
  obtain ⟨leaseMs, r, rfl, hr, -⟩ := h
  simp [Answer.touches, Answer.on, Queue.Request.op, subject, hr]

theorem Answer.Settles.touches (h : a.Settles worker jobId now) : a.touches jobId = true := by
  obtain ⟨r, rfl | rfl⟩ := h <;> simp [Answer.touches, Answer.on, Queue.Request.op, subject]

/-- A job that no answer touches, and that is not settled, leased or final. -/
theorem Told.fresh (h : ∀ a ∈ history, a.touches j.jobId = false) (hready : j.status = .ready) :
    Told history j := by
  refine ⟨?_, fun hs => ?_, fun earlier c between worker now expires hsplit hleases => ?_⟩
  · rw [countP_untouched .ack (by decide) h, hready]
    rfl
  · rw [hready] at hs
    cases hs
  · have hc : c ∈ history := by
      rw [hsplit]
      exact List.mem_append_right _ List.mem_cons_self
    have huntouched := h c hc
    rw [hleases.touches] at huntouched
    cases huntouched

theorem Moves.leases (h : Moves a j j') (hleases : a.Leases worker j.jobId now expires) :
    j'.status = .leased ∧ j'.leaseOwner = some worker ∧ j'.leaseExpiresAt = some expires ∧
      claimable now j = true := by
  have htouches := hleases.touches
  obtain ⟨leaseMs, r, rfl, hr, hexpires⟩ := hleases
  cases h with
  | kept h => rw [htouches] at h; cases h
  | buried h => rw [htouches] at h; cases h
  | claimed h _ hsame _ _ _ hclaimable _ =>
    cases h
    exact ⟨rfl, rfl, hsame.symm.trans hexpires, hclaimable⟩
  | acked h => cases h
  | nacked h => cases h
  | released h => cases h

theorem Told.acks_step (h : Told history j) (hmoves : Moves a j j') :
    (history ++ [a]).countP (Answer.on .ack j'.jobId) = if j'.status = .done then 1 else 0 := by
  rw [List.countP_append, List.countP_singleton, hmoves.jobId, h.acks]
  cases hmoves with
  | kept h => rw [Answer.on_of_touches .ack (by decide) h]; rfl
  | buried h hstatus _ =>
    rw [Answer.on_of_touches .ack (by decide) h]
    rcases hstatus with hstatus | hstatus <;> rw [hstatus] <;> rfl
  | claimed h _ _ _ _ _ hclaimable _ =>
    rw [h]
    rcases claimable_status hclaimable with hstatus | ⟨hstatus, -⟩ <;> rw [hstatus] <;> rfl
  | acked h hheld =>
    have hon : a.on .ack j.jobId = true := by simp [h, Answer.on, Queue.Request.op, subject]
    rw [(held_status hheld).1, hon]
    rfl
  | nacked h hheld => rw [(held_status hheld).1, h]; rfl
  | released h _ hheld => rw [(held_status hheld).1, h]; rfl

theorem Told.lease_step (h : Told history j) (hmoves : Moves a j j') (hleased : j'.status = .leased) :
    ∃ earlier c between worker now expires, history ++ [a] = earlier ++ c :: between ∧
      c.Leases worker j'.jobId now expires ∧ j'.leaseOwner = some worker ∧
      j'.leaseExpiresAt = some expires ∧ ∀ b ∈ between, b.touches j'.jobId = false := by
  cases hmoves with
  | kept hkept =>
    obtain ⟨earlier, c, between, worker, now, expires, rfl, hc, howner, hexpires, hbetween⟩ :=
      h.lease hleased
    refine ⟨earlier, c, between ++ [a], worker, now, expires, ?_, hc, howner, hexpires,
      fun b hb => ?_⟩
    · rw [List.append_assoc, List.cons_append]
    · rcases List.mem_append.mp hb with hb | hb
      · exact hbetween b hb
      · rw [List.mem_singleton.mp hb]
        exact hkept
  | @claimed worker now leaseMs r ha hr hexpires =>
    exact ⟨history, a, [], worker, now, now + leaseMs, rfl, ⟨leaseMs, r, ha, hr, hexpires⟩, rfl, rfl,
      fun b hb => absurd hb List.not_mem_nil⟩
  | buried => cases hleased
  | acked => cases hleased
  | nacked => cases hleased
  | released => cases hleased

theorem Told.expiry_step (h : Told history j) (hmoves : Moves a j j') {earlier between : List Answer}
    (hsplit : history ++ [a] = earlier ++ c :: between) (hc : c.Leases worker j'.jobId now expires)
    (hbetween : ∀ b ∈ between, b.returns j'.jobId = false) :
    j'.final ∨ ∃ later, j'.leaseExpiresAt = some later ∧ j'.status = .leased ∧ expires ≤ later := by
  rw [hmoves.jobId] at hc hbetween
  rcases concat_eq_append_cons.mp hsplit with ⟨rfl, rfl, rfl⟩ | ⟨between', rfl, hold⟩
  · obtain ⟨hleased, -, hexpires, -⟩ := hmoves.leases hc
    exact .inr ⟨expires, hexpires, hleased, le_refl _⟩
  · have hrest : ∀ b ∈ between', b.returns j.jobId = false :=
      fun b hb => hbetween b (List.mem_append_left _ hb)
    have hlast := hbetween a (List.mem_append_right _ (List.mem_singleton_self _))
    rcases h.expiry _ _ _ _ _ _ hold hc hrest with hfinal | ⟨later, hlater, hleased, hle⟩
    · rw [hmoves.final hfinal]
      exact .inl hfinal
    · cases hmoves with
      | kept => exact .inr ⟨later, hlater, hleased, hle⟩
      | buried => exact .inl (.inr rfl)
      | @claimed _ now leaseMs _ _ _ _ _ _ _ hclaimable =>
        refine .inr ⟨now + leaseMs, rfl, rfl, ?_⟩
        rcases claimable_status hclaimable with hready | ⟨-, e, he, hexpired⟩
        · rw [hleased] at hready
          cases hready
        · rw [hlater] at he
          obtain rfl := Option.some.inj he
          omega
      | acked => exact .inl (.inl rfl)
      | nacked ha => simp [Answer.returns, Answer.on, ha, Queue.Request.op, subject] at hlast
      | released ha hmem => simp [Answer.returns, Answer.on, Answer.releases, ha, hmem] at hlast

theorem Told.step (h : Told history j) (hmoves : Moves a j j') : Told (history ++ [a]) j' :=
  ⟨h.acks_step hmoves, h.lease_step hmoves,
    fun _ _ _ _ _ _ hsplit hc hbetween => h.expiry_step hmoves hsplit hc hbetween⟩

/-- A settlement of the job finds it leased to the worker. -/
theorem Moves.held (h : Moves a j j') (hsettles : a.Settles worker j.jobId now) :
    j.held worker now = true := by
  have htouches := hsettles.touches
  obtain ⟨r, hr⟩ := hsettles
  cases h with
  | kept h => rw [htouches] at h; cases h
  | buried h => rw [htouches] at h; cases h
  | claimed h => rcases hr with rfl | rfl <;> cases h
  | acked h hheld =>
    rcases hr with rfl | rfl
    · cases h
      exact hheld
    · cases h
  | nacked h hheld =>
    rcases hr with rfl | rfl
    · cases h
    · cases h
      exact hheld
  | released h => rcases hr with rfl | rfl <;> cases h

/-! ### Runs -/

/-- What the answers of a trail say about its jobs. -/
structure Leased (sha : Hex.Hash 64) (t : Trail) : Prop where
  sound : Sound sha t
  told : ∀ j ∈ t.state.jobs, Told t.history j
  held : Held t.history
  spaced : Spaced t.history

theorem Leased.start (sha : Hex.Hash 64) : Leased sha .start := by
  refine ⟨.start sha, fun j hj => absurd hj List.not_mem_nil, ?_, ?_⟩
  · intro before a after worker jobId now hsplit
    cases before <;> cases hsplit
  · intro before c between d after worker worker' jobId now now' expires expires' hsplit
    cases before <;> cases hsplit

/-- A job the answer touches is there, and is moved. -/
theorem Transition.moves (h : Transition sha a s s') (htouches : a.touches jobId = true) :
    ∃ j ∈ s.jobs, j.jobId = jobId ∧ ∃ j', Moves a j j' := by
  cases h with
  | moved _ jobs known =>
    obtain ⟨j, hj, hid⟩ := List.mem_map.mp (known jobId (Answer.mem_jobIds htouches))
    obtain ⟨j', -, hmoves⟩ := (Grows.of_forall₂ jobs).exists_mem hj
    exact ⟨j, hj, hid, j', hmoves⟩
  | enqueued h =>
    rw [h] at htouches
    cases htouches

theorem Leased.told_step (h : Leased sha t) (hstep : Transition sha a t.state s') :
    ∀ j ∈ s'.jobs, Told (t.history ++ [a]) j := by
  intro k hk
  have hsound := h.sound.transition hstep
  cases hstep with
  | moved _ jobs _ =>
    obtain ⟨j, hj, hmoves⟩ := Growth.exists_of_forall₂ jobs hk
    exact (h.told j hj).step hmoves
  | enqueued ha _ _ _ _ hfresh _ _ =>
    have huntouched : ∀ jobId, a.touches jobId = false := by
      rw [ha]
      exact fun _ => rfl
    rcases List.mem_append.mp hk with hk | hk
    · exact (h.told k hk).step (.kept (huntouched k.jobId))
    · rw [List.mem_singleton.mp hk]
      refine .fresh (fun b hb => ?_) rfl
      rcases List.mem_append.mp hb with hb | hb
      · exact h.sound.untouched hfresh b hb
      · rw [List.mem_singleton.mp hb]
        exact huntouched _

theorem Leased.held_step (h : Leased sha t) (hstep : Transition sha a t.state s') :
    Held (t.history ++ [a]) := by
  intro before b after worker jobId now hsplit hsettles
  rcases concat_eq_append_cons.mp hsplit with ⟨rfl, rfl, rfl⟩ | ⟨after', rfl, hold⟩
  · obtain ⟨j, hj, rfl, j', hmoves⟩ := hstep.moves hsettles.touches
    obtain ⟨hleased, howner, expires, hexpires, hlt⟩ := held_status (hmoves.held hsettles)
    obtain ⟨earlier, c, between, worker', since, expires', hsplit, hc, howner', hexpires', hbetween⟩ :=
      (h.told j hj).lease hleased
    obtain rfl := Option.some.inj (howner.symm.trans howner')
    obtain rfl := Option.some.inj (hexpires.symm.trans hexpires')
    exact ⟨earlier, c, between, since, expires, hsplit, hc, hlt, hbetween⟩
  · exact h.held before b after' worker jobId now hold hsettles

theorem Leased.spaced_step (h : Leased sha t) (hstep : Transition sha a t.state s') :
    Spaced (t.history ++ [a]) := by
  intro before c between d after worker worker' jobId now now' expires expires' hsplit hc hd hbetween
  rw [← List.cons_append, ← List.append_assoc] at hsplit
  rcases concat_eq_append_cons.mp hsplit with ⟨rfl, hold, rfl⟩ | ⟨after', rfl, hold⟩
  · obtain ⟨j, hj, rfl, j', hmoves⟩ := hstep.moves hd.touches
    obtain ⟨-, -, -, hclaimable⟩ := hmoves.leases hd
    rcases (h.told j hj).expiry _ _ _ _ _ _ hold hc hbetween with
      hfinal | ⟨later, hlater, hleased, hle⟩
    · rcases claimable_status hclaimable with hstatus | ⟨hstatus, -⟩ <;>
        simp [Job.final, hstatus] at hfinal
    · rcases claimable_status hclaimable with hready | ⟨-, e, he, hexpired⟩
      · rw [hleased] at hready
        cases hready
      · obtain rfl := Option.some.inj (hlater.symm.trans he)
        exact le_trans hle hexpired
  · rw [List.append_assoc, List.cons_append] at hold
    exact h.spaced _ _ _ _ _ _ _ _ _ _ _ _ hold hc hd hbetween

theorem Leased.step (h : Leased sha t) (c : Call) : Leased sha (t.step sha c) := by
  rcases h.sound.step_cases c with hsame | ⟨s', a, -, hstep, htransition⟩
  · rw [hsame]
    exact h
  · rw [hstep]
    exact ⟨h.sound.transition htransition, h.told_step htransition, h.held_step htransition,
      h.spaced_step htransition⟩

theorem leased_run (sha : Hex.Hash 64) (calls : List Call) : Leased sha (run sha calls) := by
  unfold run
  induction calls using List.reverseRecOn with
  | nil => exact .start sha
  | append_singleton calls c ih =>
    rw [List.foldl_append]
    exact ih.step c

theorem Leased.acked_once (h : Leased sha t) (jobId : Text) :
    t.history.countP (Answer.on .ack jobId) ≤ 1 := by
  by_cases hknown : jobId ∈ t.state.jobs.map Job.jobId
  · obtain ⟨j, hj, rfl⟩ := List.mem_map.mp hknown
    rw [(h.told j hj).acks]
    split_ifs
    · exact le_refl _
    · exact Nat.zero_le _
  · rw [countP_untouched .ack (by decide) (h.sound.untouched hknown)]
    exact Nat.zero_le _

/-- In every run, a job is settled only by the worker of its last claim, before that lease
expires and before anything else ends it. It is acknowledged at most once. It is claimed
again no earlier than the expiry of its lease, unless it was made ready before. -/
theorem lease_safety (sha : Hex.Hash 64) (calls : List Call) :
    Held (run sha calls).history ∧
    (∀ jobId, (run sha calls).history.countP (Answer.on .ack jobId) ≤ 1) ∧
    Spaced (run sha calls).history := by
  have h := leased_run sha calls
  exact ⟨h.held, h.acked_once, h.spaced⟩

/-- A job enqueued, claimed for one tick at time zero, and acknowledged then. -/
def settledCalls : List Call :=
  let claim : PyObj := .object 0 Queue.Op.claim.fields [.atom (.str Queue.Op.claim.text),
    .atom (.str ['w']), .atom (.int 0), .atom (.int 1)]
  let ack : PyObj := .object 0 Queue.Op.ack.fields [.atom (.str Queue.Op.ack.text),
    .atom (.str (jobIdFor (.lengths 64) ['k'])), .atom (.str ['w']), .atom (.int 0)]
  [.queue nullRequest, .queue claim, .queue ack]

/-- The acknowledgement of that run is of a live lease. -/
theorem lease_safety_settledCalls :
    ((run (.lengths 64) settledCalls).state.jobs.map Job.status = [.done]) ∧
    ∃ c ∈ (run (.lengths 64) settledCalls).history.take 2, ∃ since expires,
      c.Leases ['w'] (jobIdFor (.lengths 64) ['k']) since expires ∧ 0 < expires := by
  obtain ⟨hheld, -, -⟩ := lease_safety (.lengths 64) settledCalls
  obtain ⟨earlier, c, between, since, expires, hsplit, hc, hlt, -⟩ :=
    hheld ((run (.lengths 64) settledCalls).history.take 2) _ [] ['w']
      (jobIdFor (.lengths 64) ['k']) 0 rfl ⟨_, .inl rfl⟩
  refine ⟨rfl, c, ?_, since, expires, hc, hlt⟩
  rw [hsplit]
  exact List.mem_append_right _ List.mem_cons_self

end Jobs
end OpenChess
