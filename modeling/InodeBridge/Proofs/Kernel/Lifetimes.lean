import InodeBridge.Proofs.Kernel.Callbacks

/-! # Lifetimes that the kernel is told

An outcome that describes an object holds both configured lifetimes, that of its attributes and that of
its name.  A reply with a name is given one lifetime only, that of the name, and sends it for both.  So
the configured lifetime of attributes reaches the kernel where they are sent without a name, or where
the two are equal.
-/
namespace InodeBridge

namespace Outcome

def nameTtl? : Outcome → Option Duration
  | .entry e | .created e _ => some e.entryTtl
  | _ => none

def attrTtl? : Outcome → Option Duration
  | .entry e | .created e _ => some e.attrTtl
  | .attributes _ ttl => some ttl
  | _ => none

end Outcome

namespace Dispatcher

/-- Whatever serving a request looks like, the lifetimes in its outcome are the configured ones. -/
theorem Conduct.lifetimes {d d' : Dispatcher} {req : Request} {events : List Storage.Event}
    {outcome : Outcome} (h : Conduct d req events (some outcome) d') :
    (∀ ttl ∈ outcome.nameTtl?, ttl = d.options.entryTtl) ∧
      ∀ ttl ∈ outcome.attrTtl?, ttl = d.options.attrTtl := by
  cases h with
  | settled _ settles => cases req <;> cases settles <;> exact ⟨nofun, nofun⟩
  | found | made | created => constructor <;> rintro ttl ⟨⟩ <;> rfl
  | described | changed => exact ⟨nofun, by rintro ttl ⟨⟩; rfl⟩
  | _ => exact ⟨nofun, nofun⟩

end Dispatcher

namespace Kernel

namespace Reply

def nameTtl? : Reply → Option Duration
  | .entry e | .created e _ => some e.entryTtl
  | _ => none

def attrTtl? : Reply → Option Duration
  | .entry e | .created e _ => some e.attrTtl
  | .attributes _ ttl => some ttl
  | _ => none

end Reply

/-- Whether the replies of a form name the object that they describe. -/
def ReplyForm.isNaming : ReplyForm → Bool
  | .entry | .created => true
  | _ => false

/-- The lifetimes sent for an outcome: with a name that of the name, twice. -/
theorem lifetimes_call {form : ReplyForm} {outcome : Outcome}
    (h : (Reply.ofCall (form.call outcome)).inode?.isSome = true) :
    (form.isNaming = true ∧ (Reply.ofCall (form.call outcome)).nameTtl? = outcome.nameTtl? ∧
      (Reply.ofCall (form.call outcome)).attrTtl? = outcome.nameTtl? ∧ outcome.nameTtl?.isSome) ∨
    (form = .attributes ∧ (Reply.ofCall (form.call outcome)).nameTtl? = none ∧
      (Reply.ofCall (form.call outcome)).attrTtl? = outcome.attrTtl? ∧ outcome.attrTtl?.isSome) := by
  cases form <;> cases outcome
  case entry.entry | created.created => exact .inl ⟨rfl, rfl, rfl, rfl⟩
  case attributes.attributes => exact .inr ⟨rfl, rfl, rfl, rfl⟩
  all_goals cases h

section Sending

variable {σ : Type} (s : Storage σ) (state : σ) {session : Session} {request : Request}
  {reply : Reply}

/-- A reply that describes an object is the one to an outcome of the dispatcher, in the form of the
request. -/
theorem exists_outcome_of_inode? (hdescribes : reply.inode?.isSome = true)
    (hreply : (((Session.serve request).run session).run s state).result.1 = some reply) :
    ∃ form served events outcome d', request.form? = some form ∧
      Dispatcher.Conduct session.dispatcher served events (some outcome) d' ∧
      reply = .ofCall (form.call outcome) := by
  by_cases hrequest : request = .plain .destroy
  · subst hrequest
    rw [serve_destroy_run] at hreply
    cases hreply
    cases hdescribes
  cases hlive : session.isDestroyed with
  | true =>
    rw [serve_run_of_isDestroyed s state hlive hrequest] at hreply
    obtain ⟨_, _, rfl⟩ := Option.map_eq_some_iff.1 hreply
    cases hdescribes
  | false =>
    rw [serve_run s state hlive hrequest] at hreply
    cases hserved : request.resolve session.clock with
    | error errno =>
      rw [callback_refused s session.dispatcher state hserved] at hreply
      cases hreply
      cases hdescribes
    | ok served =>
      rw [callback_served s session.dispatcher state hserved] at hreply
      obtain ⟨call, hcall, rfl⟩ := Option.map_eq_some_iff.1 hreply
      obtain ⟨form, hform, hcall⟩ := Option.bind_eq_some_iff.1 hcall
      obtain ⟨outcome, houtcome, rfl⟩ := Option.map_eq_some_iff.1 hcall
      have hconduct := Dispatcher.serve_conduct
        (Dispatcher.serveOver_possible s session.dispatcher state served)
      rw [houtcome] at hconduct
      exact ⟨form, served, _, outcome, _, hform, hconduct, rfl⟩

end Sending

/-- Whatever is configured and whatever storage answers, a reply that describes an object and names it
sends the configured lifetime of names for the name and for the attributes; one that only tells
attributes sends that of attributes.  So the configured lifetime of attributes is sent exactly where no
name is, or where both are equal. -/
theorem attribute_lifetime_sent_iff {σ : Type} (s : Storage σ) (state : σ) (session : Session)
    (request : Request) (reply : Reply)
    (hreply : (((Session.serve request).run session).run s state).result.1 = some reply)
    (hdescribes : reply.inode?.isSome = true) :
    let options := session.dispatcher.options
    ((request.form?.any (·.isNaming) = true ∧ reply.nameTtl? = some options.entryTtl ∧
        reply.attrTtl? = some options.entryTtl) ∨
      (request.form? = some .attributes ∧ reply.nameTtl? = none ∧
        reply.attrTtl? = some options.attrTtl)) ∧
    (reply.attrTtl? = some options.attrTtl ↔
      request.form? = some .attributes ∨ options.attrTtl = options.entryTtl) := by
  obtain ⟨form, served, events, outcome, d', hform, hconduct, rfl⟩ :=
    exists_outcome_of_inode? s state hdescribes hreply
  obtain ⟨hname, hattr⟩ := hconduct.lifetimes
  intro options
  rw [hform]
  rcases lifetimes_call hdescribes with ⟨hnaming, hsent, hsent', hsome⟩ | ⟨rfl, hsent, hsent', hsome⟩
  · obtain ⟨ttl, httl⟩ := Option.isSome_iff_exists.1 hsome
    obtain rfl := hname ttl httl
    rw [httl] at hsent hsent'
    have hnot : form ≠ .attributes := by
      rintro rfl
      cases hnaming
    refine ⟨.inl ⟨hnaming, hsent, hsent'⟩, ?_⟩
    simp [hsent', hnot, options, eq_comm]
  · obtain ⟨ttl, httl⟩ := Option.isSome_iff_exists.1 hsome
    obtain rfl := hattr ttl httl
    rw [httl] at hsent'
    exact ⟨.inr ⟨rfl, hsent, hsent'⟩, fun _ => .inl rfl, fun _ => hsent'⟩

/-- Attributes are to be believed for a second and names for ten.  After a lookup both are believed for
ten. -/
theorem looked_up_attributes_outlive :
    let root : Path := ⟨[slash]⟩
    let stat : Stat := ⟨.regular, 7, 1, .epoch, .epoch, .epoch, 0o644, 1, ⟨5, 5⟩, 0, 512⟩
    let storage : Storage Unit := {
      root
      perform
        | .stat _, u => (.ok stat, u)
        | _, u => (.error (.host Errno.inputOutput), u) }
    let options := MountOptions.withTtl ⟨1, 0⟩ ⟨10, 0⟩
    let session := Session.new (Dispatcher.start (fun _ salt => salt + 2) options root) .epoch
    let request : Request := .plain (.lookup rootInode [0x61])
    ∃ reply, (((Session.serve request).run session).run storage ()).result.1 = some reply ∧
      reply.inode?.isSome = true ∧ reply.nameTtl? = some ⟨10, 0⟩ ∧ reply.attrTtl? = some ⟨10, 0⟩ ∧
      reply.attrTtl? ≠ some options.attrTtl := by
  intro root stat storage options session request
  obtain ⟨reply, hreply, hdescribes⟩ : ∃ reply,
      (((Session.serve request).run session).run storage ()).result.1 = some reply ∧
        reply.inode?.isSome = true :=
    ⟨.entry (.sent ⟨10, 0⟩ (.ofStat 2 stat) 1), by decide +kernel, rfl⟩
  obtain ⟨⟨_, hname, hattr⟩ | ⟨hform, _⟩, hiff⟩ :=
    attribute_lifetime_sent_iff storage () session request reply hreply hdescribes
  · refine ⟨reply, hreply, hdescribes, hname, hattr, fun h => ?_⟩
    exact absurd (hiff.1 h) (by decide)
  · cases hform

end Kernel
end InodeBridge
