import InodeBridge.Kernel.Session
import InodeBridge.Proofs.Dispatcher.Records
import InodeBridge.Proofs.Dispatcher.Runs

/-! # The kernel is told what the dispatcher answered

Each request has one form of reply, and its outcome either has this form or is a failure.  So no
outcome is lost in its reply: a success is told with all that it holds, up to lifetimes, and a failure
by its number.
-/
namespace InodeBridge

namespace DirectoryBuffer

/-- Filling a buffer adds records up to the end, or up to one that does not fit. -/
theorem Filled.exists_fill {b : DirectoryBuffer} {budget : Nat} (h : b.Filled budget)
    (es : List DirectoryEntry) :
    ∃ added rest, es = added ++ rest ∧ (b.fill es).1.entries = b.entries ++ added ∧
      ∀ next ∈ rest.head?, budget < (b.fill es).1.used + recordSize next.name := by
  induction es generalizing b with
  | nil => exact ⟨[], [], rfl, by simp [DirectoryBuffer.fill], by simp⟩
  | cons e es ih =>
    cases hadd : b.add? e with
    | none =>
      have hfill : b.fill (e :: es) = (b, false) := by rw [DirectoryBuffer.fill, hadd]
      refine ⟨[], e :: es, rfl, by simp [hfill], ?_⟩
      rintro next ⟨⟩
      rw [hfill, ← h.budget_eq]
      exact add?_eq_none_iff.1 hadd
    | some longer =>
      have hfill : b.fill (e :: es) = longer.fill es := by rw [DirectoryBuffer.fill, hadd]
      obtain ⟨added, rest, rfl, hentries, hfull⟩ := ih (h.add hadd)
      refine ⟨e :: added, rest, rfl, ?_, hfill ▸ hfull⟩
      rw [hfill, hentries, (add?_eq_some_iff.1 hadd).2]
      simp

end DirectoryBuffer

namespace Kernel

open Dispatcher (Conduct Begins serveOver)

def ReplyForm.room : ReplyForm → Nat
  | .directory size => size
  | _ => 0

/-- A call tells an outcome: what it is given on success is what the outcome holds, and it is given the
number of a failure.  Lifetimes are left open.  Of a listing the records are told in order, up to its end
or to one for which there is no room. -/
inductive Mirrors (room : Nat) : Outcome → ReplyCall → Prop
  | ok : Mirrors room .ok .ok
  | failed {outcome : Outcome} {errno : Errno} (fails : outcome.errno? = some errno) :
    Mirrors room outcome (.error errno)
  | entry (e : EntryReply) (ttl : Duration) :
    Mirrors room (.entry e) (.entry ttl e.attributes e.generation)
  | attributes (a : Attributes) (ttl ttl' : Duration) :
    Mirrors room (.attributes a ttl) (.attributes ttl' a)
  | opened (o : OpenReply) : Mirrors room (.opened o) (.opened o.handle o.flags)
  | created (e : EntryReply) (o : OpenReply) (ttl : Duration) :
    Mirrors room (.created e o) (.created ttl e.attributes e.generation o.handle o.flags)
  | data (bytes : Bytes) : Mirrors room (.data bytes) (.data bytes)
  | linkContent (path : Path) : Mirrors room (.linkContent path) (.data path.bytes)
  | directory {buffer : DirectoryBuffer} {shown rest : List DirectoryEntry}
    (split : buffer.entries = shown ++ rest)
    (fits : (shown.map fun e => recordSize e.name).sum ≤ room)
    (full : ∀ next ∈ rest.head?,
      room < (shown.map fun e => recordSize e.name).sum + recordSize next.name) :
    Mirrors room (.directory buffer) (.directory shown)
  | written (count : UInt32) : Mirrors room (.written count) (.written count)
  | capacity (c : Capacity) : Mirrors room (.capacity c) (.capacity c)
  | xattrSize (size : UInt32) : Mirrors room (.xattrSize size) (.xattrSize size)
  | block (number : UInt64) : Mirrors room (.block number) (.block number)

def ReplyForm.Takes (form : ReplyForm) (outcome : Outcome) : Prop :=
  (form.success? outcome).isSome ∨ outcome.errno?.isSome

theorem mirrors_fill (buffer : DirectoryBuffer) (size : Nat) :
    Mirrors size (.directory buffer)
      (.directory ((DirectoryBuffer.new size).fill buffer.entries).1.entries) := by
  have hnew := DirectoryBuffer.filled_new size
  have hfilled := hnew.fill buffer.entries
  obtain ⟨added, rest, hsplit, hentries, hfull⟩ := hnew.exists_fill buffer.entries
  rw [DirectoryBuffer.new, List.nil_append, ← DirectoryBuffer.new] at hentries
  rw [hfilled.used_eq, hentries] at hfull
  rw [hentries]
  refine .directory hsplit ?_ hfull
  rw [← hentries, ← hfilled.used_eq]
  exact hfilled.used_le

theorem mirrors_of_success? {form : ReplyForm} {outcome : Outcome} {reply : ReplyCall}
    (h : form.success? outcome = some reply) : Mirrors form.room outcome reply := by
  cases form <;> cases outcome <;> cases h
  case directory => exact mirrors_fill _ _
  all_goals constructor

theorem ReplyForm.Takes.mirrors {form : ReplyForm} {outcome : Outcome} (h : form.Takes outcome) :
    Mirrors form.room outcome (form.call outcome) := by
  rw [call]
  cases hsuccess : form.success? outcome with
  | some reply => exact mirrors_of_success? hsuccess
  | none =>
    rw [Takes, hsuccess] at h
    obtain ⟨errno, herrno⟩ := Option.isSome_iff_exists.1 (h.resolve_left (by simp))
    rw [Option.getD_none, Outcome.errno, herrno]
    exact .failed herrno

theorem takes_error (form : ReplyForm) (errno : Errno) : form.Takes (.error errno) := .inr rfl

/-- What answers a request without a call has the form of its reply, or says that it is not served. -/
theorem takes_of_settledBy? {req : InodeBridge.Request} {outcome : Outcome} {form : ReplyForm}
    (settles : req.settledBy? = some outcome) (hform : ReplyForm.ofRequest? req = some form) :
    form.Takes outcome := by
  cases req <;> cases settles <;> cases hform
  all_goals first | exact .inl rfl | exact .inr rfl

/-- Whatever serving a request looks like, if it is replied to there is an outcome that its form
takes. -/
theorem exists_takes_of_conduct {d d' : Dispatcher} {req : InodeBridge.Request}
    {events : List Storage.Event} {out : Option Outcome} {form : ReplyForm}
    (h : Conduct d req events out d') (hform : ReplyForm.ofRequest? req = some form) :
    ∃ outcome, out = some outcome ∧ form.Takes outcome := by
  cases h with
  | refused | failed | rejected | untold | unseen | abandoned | unopened =>
    exact ⟨_, rfl, takes_error form _⟩
  | settled _ settles => exact ⟨_, rfl, takes_of_settledBy? settles hform⟩
  | made begins makes =>
    refine ⟨_, rfl, .inl ?_⟩
    cases begins <;> cases makes <;> cases hform <;> rfl
  | removed begins removes =>
    refine ⟨_, rfl, .inl ?_⟩
    cases begins <;> cases removes <;> cases hform <;> rfl
  | forgot | forgotAll | destroyed => cases hform
  | _ =>
    cases hform
    exact ⟨_, rfl, .inl rfl⟩

def Request.isFlagged : Request → Bool
  | .rename _ _ _ _ flags => flags != 0
  | _ => false

theorem resolve_of_isFlagged {clock : Timestamp} {request : Request}
    (h : request.isFlagged = true) : request.resolve clock = .error Errno.invalid := by
  cases request with
  | rename _ _ _ _ flags =>
    rw [Request.resolve, if_neg]
    simpa [Request.isFlagged] using h
  | _ => cases h

/-- The request that is served for one of the kernel is replied to in the same form, up to the room for
a listing. -/
theorem exists_resolve {request : Request} (clock : Timestamp) {form : ReplyForm}
    (h : request.isFlagged = false) (hform : request.form? = some form) :
    ∃ served form', request.resolve clock = .ok served ∧ ReplyForm.ofRequest? served = some form' ∧
      ∀ outcome, form'.Takes outcome → form.Takes outcome := by
  cases request with
  | rename _ _ _ _ flags =>
    obtain rfl : flags = 0 := by simpa [Request.isFlagged] using h
    exact ⟨_, form, rfl, hform, fun _ => id⟩
  | readdir =>
    cases hform
    refine ⟨_, _, rfl, rfl, fun outcome => ?_⟩
    cases outcome <;> exact id
  | _ => exact ⟨_, form, rfl, hform, fun _ => id⟩

section Running

variable {σ : Type} (s : Storage σ) {clock : Timestamp} {request : Request} (d : Dispatcher)
  (state : σ)

theorem callback_refused {errno : Errno} (h : request.resolve clock = .error errno) :
    ((callback clock request).run d).run s state = ⟨(some (.error errno), d), state, []⟩ := by
  rw [callback, h]
  rfl

/-- A request of the kernel does what the request does that is served for it. -/
theorem callback_served {served : InodeBridge.Request} (h : request.resolve clock = .ok served) :
    ((callback clock request).run d).run s state =
      ⟨(request.form?.bind fun form => (serveOver s d state served).1.outcome.map form.call,
          (serveOver s d state served).1.after),
        (serveOver s d state served).2, (serveOver s d state served).1.events⟩ := by
  rw [callback, h]
  change (((Dispatcher.serve served).run d).bind _).run s state = _
  rw [Program.run_bind]
  exact congrArg _ (List.append_nil _)

/-- A session that was not destroyed sends what the callback of a request calls for. -/
theorem serve_run {session : Session} (hlive : session.isDestroyed = false)
    (hrequest : request ≠ .plain .destroy) :
    ((Session.serve request).run session).run s state =
      let run := ((callback session.clock request).run session.dispatcher).run s state
      ⟨(run.result.1.map .ofCall, { session with dispatcher := run.result.2 }), run.state,
        run.trace⟩ := by
  have hserve : (Session.serve request).run session =
      ((callback session.clock request).run session.dispatcher).bind fun after =>
        .done (after.1.map .ofCall, { session with dispatcher := after.2 }) := by
    obtain ⟨d, clock, isDestroyed⟩ := session
    obtain rfl : isDestroyed = false := hlive
    have hdispatch : (do
          let call ← Session.dispatch (callback clock request)
          return call.map .ofCall : Session.Action (Option Reply)).run ⟨d, clock, false⟩ =
        ((callback clock request).run d).bind fun after =>
          .done (after.1.map .ofCall, ⟨after.2, clock, false⟩) :=
      Program.bind_assoc _ _ _
    rw [← hdispatch]
    cases request with
    | plain request =>
      cases request with
      | destroy => exact absurd rfl hrequest
      | _ => rfl
    | _ => rfl
  rw [hserve, Program.run_bind]
  exact congrArg _ (List.append_nil _)

/-- Destroying a session succeeds, and takes from the dispatcher what it holds. -/
theorem serve_destroy_run (session : Session) :
    ((Session.serve (.plain .destroy)).run session).run s state =
      let run := ((callback session.clock (.plain .destroy)).run session.dispatcher).run s state
      ⟨(some .ok, { session with dispatcher := run.result.2, isDestroyed := true }), run.state,
        run.trace⟩ := by
  have hserve : (Session.serve (.plain .destroy)).run session =
      ((callback session.clock (.plain .destroy)).run session.dispatcher).bind fun after =>
        .done (some .ok, { session with dispatcher := after.2, isDestroyed := true }) :=
    Program.bind_assoc _ _ _
  rw [hserve, Program.run_bind]
  exact congrArg _ (List.append_nil _)

theorem serve_run_of_isDestroyed {session : Session} (hdestroyed : session.isDestroyed = true)
    (hrequest : request ≠ .plain .destroy) :
    ((Session.serve request).run session).run s state =
      ⟨(request.form?.map fun _ => .error Errno.inputOutput, session), state, []⟩ := by
  obtain ⟨d, clock, isDestroyed⟩ := session
  obtain rfl : isDestroyed = true := hdestroyed
  cases request with
  | plain request =>
    cases request with
    | destroy => exact absurd rfl hrequest
    | _ => rfl
  | _ => rfl

end Running

/-- Whatever the state, the storage and the request, a reply tells the outcome of the request that was
served.  The outcome has the form of the reply or is a failure, so a reply says that input and output
failed only where the outcome does.  A rename with flags is refused before anything is done, and a
session starts with success. -/
theorem replies_tell_outcomes {σ : Type} (s : Storage σ) (clock : Timestamp) (d : Dispatcher)
    (state : σ) (request : Request) (form : ReplyForm) (hform : request.form? = some form) :
    (request.isFlagged = false → ∃ served outcome reply,
      request.resolve clock = .ok served ∧
      (serveOver s d state served).1.outcome = some outcome ∧
      form.Takes outcome ∧ Mirrors form.room outcome reply ∧
      ((callback clock request).run d).run s state =
        ⟨(some reply, (serveOver s d state served).1.after), (serveOver s d state served).2,
          (serveOver s d state served).1.events⟩) ∧
    (request.isFlagged = true →
      ((callback clock request).run d).run s state =
        ⟨(some (.error Errno.invalid), d), state, []⟩) ∧
    (Session.start.run (.new d clock)).run s state = ⟨(⟨0, true⟩, .new d clock), state, []⟩ := by
  refine ⟨fun hplain => ?_, fun hflagged => ?_, rfl⟩
  · obtain ⟨served, form', hserved, hform', htakes⟩ := exists_resolve clock hplain hform
    have hconduct := Dispatcher.serve_conduct (Dispatcher.serveOver_possible s d state served)
    obtain ⟨outcome, houtcome, htaken⟩ := exists_takes_of_conduct hconduct hform'
    refine ⟨served, outcome, form.call outcome, hserved, houtcome, htakes _ htaken,
      (htakes _ htaken).mirrors, ?_⟩
    rw [callback_served s d state hserved, hform, houtcome]
    rfl
  · exact callback_refused s d state (resolve_of_isFlagged hflagged)

/-- The kernel lists a directory with an entry into a buffer that has room for two records.  It is told
the first two of the three that the outcome holds. -/
theorem reply_cuts_listing :
    let root : Path := ⟨[slash]⟩
    let stat : Stat := ⟨.regular, 7, 1, .epoch, .epoch, .epoch, 0o644, 1, ⟨5, 5⟩, 0, 512⟩
    let storage : Storage Unit := {
      root
      perform
        | .stat _, u => (.ok stat, u)
        | .readdir _, u => (.ok [[0x61]], u)
        | _, u => (.error (.host Errno.inputOutput), u) }
    let d := Dispatcher.start (fun _ salt => salt + 2) {} root
    let request : Request := .readdir rootInode 0 0 64
    request.form? = some (.directory 64) ∧ request.isFlagged = false ∧
    ∃ outcome reply, Mirrors 64 outcome reply ∧
      (((callback .epoch request).run d).run storage ()).result.1 = some reply ∧
      outcome.inodes = [1, 1, 2] ∧
      reply = .directory [Dispatcher.record 0 1 .directory Name.here,
        Dispatcher.record 1 1 .directory Name.above] := by
  intro root stat storage d request
  obtain ⟨served, outcome, reply, hserved, houtcome, _, hmirrors, hrun⟩ :=
    (replies_tell_outcomes storage .epoch d () request (.directory 64) rfl).1 rfl
  obtain rfl := Except.ok.inj hserved
  refine ⟨rfl, rfl, outcome, reply, hmirrors, by rw [hrun], ?_, ?_⟩
  · have hinodes : (serveOver storage d () (.readdir rootInode 0 0
        Request.listingBudget)).1.outcome.map Outcome.inodes = some [1, 1, 2] := by
      decide +kernel
    rw [houtcome] at hinodes
    exact Option.some.inj hinodes
  · have hreply : (((callback .epoch request).run d).run storage ()).result.1 =
        some (.directory [Dispatcher.record 0 1 .directory Name.here,
          Dispatcher.record 1 1 .directory Name.above]) := by
      decide +kernel
    rw [hrun] at hreply
    exact Option.some.inj hreply

end Kernel
end InodeBridge
