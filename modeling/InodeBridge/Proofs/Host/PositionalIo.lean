import InodeBridge.Proofs.Host.Attributes
import InodeBridge.Proofs.Host.OpenFiles
import InodeBridge.Proofs.Host.Transfers

/-! # Reading and writing one file

A file has one image, through whichever descriptor it is used.  A write lays its bytes over the image, a
new length cuts or extends it, and a read gives a part of it, in however many pieces and after however
many interruptions the host moves that.
-/
namespace InodeBridge

open Storage (Call Event)
open Host (ObjectId Content overlaid resized positionLimit)

def Storage.Call.positional? : Call → Option Descriptor
  | .truncateOpen fd _ | .read fd .. | .write fd .. => some fd
  | _ => none

def imageOf (image : Bytes) : Call → Bytes
  | .write _ offset data => overlaid image offset.toNat data
  | .truncateOpen _ size => resized image size.toNat
  | _ => image

def imageAfter (image : Bytes) (calls : List Call) : Bytes := calls.foldl imageOf image

/-- Whether what a read gave is what an image has there; other calls tell nothing of it. -/
def Storage.Event.Tells (image : Bytes) : Event → Prop
  | ⟨.read _ offset size, .ok data⟩ => data = (image.drop offset.toNat).take size.toNat
  | _ => True

namespace Host

variable {h : Host} {id : ObjectId} {image : Bytes}

theorem content?_alterContent (h : Host) (id : ObjectId) (f : Content → Content) :
    (h.alterContent id f).content? id = (h.content? id).map f := by
  rw [content?, node?, alterContent, object?_alter, content?, node?]
  cases ho : h.object? id with
  | none => rfl
  | some o =>
    rw [Option.map_some, if_pos rfl, Option.map_some, Option.map_some]
    cases hnode : o.node <;> simp [hnode]

def HasImage (h : Host) (id : ObjectId) (image : Bytes) : Prop :=
  ∃ content, h.content? id = some content ∧ content.Holds image

theorem HasImage.write (hfile : h.HasImage id image) (offset : Nat) (data : Bytes) :
    (h.alterContent id (·.write offset data)).HasImage id (overlaid image offset data) := by
  obtain ⟨content, hcontent, hholds⟩ := hfile
  exact ⟨_, by rw [content?_alterContent, hcontent, Option.map_some], hholds.write offset data⟩

theorem HasImage.resize (hfile : h.HasImage id image) (length : Nat) :
    (h.alterContent id (·.resize length)).HasImage id (resized image length) := by
  obtain ⟨content, hcontent, hholds⟩ := hfile
  exact ⟨_, by rw [content?_alterContent, hcontent, Option.map_some], hholds.resize length⟩

end Host

namespace HostStorage

variable {root : Path} {s s' : HostStorage} {state state' : List Disturbance × HostStorage}
  {object : ObjectId} {image : Bytes} {file : HostFile} {fd : Descriptor} {events : List Event}

theorem file_eq_ok (hfd : s.files.get? fd = some file) : s.file fd = .ok file := by
  rw [HostStorage.file, hfd]

section Calls

variable (hfile : s.host.HasImage file.object image) (hfd : s.files.get? fd = some file)

include hfile hfd

theorem write_hasImage {offset count : UInt64} {data : Bytes}
    (h : answer (.write fd offset data) s = (.ok count, s')) :
    s'.host.HasImage file.object (overlaid image offset.toNat data) := by
  rw [answer, write, file_eq_ok hfd] at h
  dsimp only at h
  by_cases hdata : data = []
  · rw [if_pos (by simp [hdata])] at h
    obtain ⟨_, rfl⟩ := Prod.mk.inj h
    rwa [overlaid, if_pos hdata]
  · rw [if_neg (by simpa using hdata)] at h
    cases hw : s.host.pwrite file.object file.writable offset.toNat data with
    | error e =>
      rw [hw] at h
      cases h
    | ok host =>
      rw [hw] at h
      obtain ⟨_, rfl⟩ := Prod.mk.inj h
      obtain rfl := Host.pwrite_eq_ok hw
      exact hfile.write offset.toNat data

theorem truncateOpen_hasImage {size : UInt64}
    (h : answer (.truncateOpen fd size) s = (.ok (), s')) :
    s'.host.HasImage file.object (resized image size.toNat) := by
  rw [answer, file_eq_ok hfd] at h
  dsimp only at h
  rcases setLength_cases s file size with ⟨e, hfails⟩ | ⟨_, hset⟩
  · rw [hfails] at h
    cases h
  · rw [hset] at h
    obtain ⟨_, rfl⟩ := Prod.mk.inj h
    exact hfile.resize size.toNat

omit hfile in
theorem read_eq (offset : UInt64) (size : UInt32) :
    answer (.read fd offset size) s =
      ((readOn s.host file.object offset.toNat size.toNat s.transfers []).1.mapError .host,
        { s with transfers :=
          (readOn s.host file.object offset.toNat size.toNat s.transfers []).2 }) := by
  rw [answer, read, file_eq_ok hfd]

theorem read_eq_ok {offset : UInt64} {size : UInt32} {data : Bytes}
    (h : answer (.read fd offset size) s = (.ok data, s')) :
    data = (image.drop offset.toNat).take size.toNat ∧ s'.host = s.host := by
  obtain ⟨content, hcontent, hholds⟩ := hfile
  rw [read_eq hfd] at h
  obtain ⟨hdata, rfl⟩ := Prod.mk.inj h
  refine ⟨?_, rfl⟩
  cases hread : (readOn s.host file.object offset.toNat size.toNat s.transfers []).1 with
  | error e =>
    rw [hread] at hdata
    cases hdata
  | ok bytes =>
    rw [hread] at hdata
    obtain rfl := Except.ok.inj hdata
    exact readOn_eq_ok hcontent hholds hread

theorem read_ok_or_error (offset : UInt64) (size : UInt32) :
    (answer (.read fd offset size) s).1 = .ok ((image.drop offset.toNat).take size.toNat) ∨
      ∃ e, (answer (.read fd offset size) s).1 = .error (.host e) := by
  obtain ⟨content, hcontent, hholds⟩ := hfile
  rw [read_eq hfd]
  cases hread : (readOn s.host file.object offset.toNat size.toNat s.transfers []).1 with
  | ok bytes =>
    rw [readOn_eq_ok hcontent hholds hread]
    exact .inl rfl
  | error e => exact .inr ⟨e, rfl⟩

/-- Within the positions there are, a read fails exactly if it meets a failure on the way, and with
that. -/
theorem read_eq_error_iff {offset : UInt64} {size : UInt32} {e : Errno}
    (hlimit : offset.toNat + size.toNat < positionLimit) :
    (answer (.read fd offset size) s).1 = .error (.host e) ↔
      MeetsFailure s.host file.object offset.toNat size.toNat s.transfers e := by
  obtain ⟨content, hcontent, hholds⟩ := hfile
  rw [← readOn_eq_error_iff hcontent hholds hlimit, read_eq hfd]
  dsimp only
  cases (readOn s.host file.object offset.toNat size.toNat s.transfers []).1 with
  | ok bytes => constructor <;> rintro ⟨⟩
  | error e' =>
    constructor
    · rintro ⟨⟩
      rfl
    · rintro ⟨⟩
      rfl

/-- A call on a file that succeeds does to its image what it says, and a read tells a part of it. -/
theorem answer_hasImage {c : Call} {a : c.Answer} (hat : c.positional? = some fd)
    (h : answer c s = (.ok a, s')) :
    s'.host.HasImage file.object (imageOf image c) ∧ s'.files = s.files ∧
      Event.Tells image ⟨c, .ok a⟩ := by
  have hfiles : s'.files = s.files := by
    have hsame : (answer c s).2.files = s.files := by
      apply files_answer
      cases c <;> first | rfl | cases hat
    rwa [h] at hsame
  cases c with
  | write fd' offset data =>
    obtain rfl := Option.some.inj hat
    exact ⟨write_hasImage hfile hfd h, hfiles, trivial⟩
  | truncateOpen fd' size =>
    obtain rfl := Option.some.inj hat
    exact ⟨truncateOpen_hasImage hfile hfd h, hfiles, trivial⟩
  | read fd' offset size =>
    obtain rfl := Option.some.inj hat
    obtain ⟨hdata, hhost⟩ := read_eq_ok hfile hfd h
    exact ⟨hhost ▸ hfile, hfiles, hdata⟩
  | _ => cases hat

end Calls

def WorksOn (s : HostStorage) (object : ObjectId) (event : Event) : Prop :=
  (event.call.positional?.bind s.files.get?).map (·.object) = some object ∧
    event.result.isOk = true

instance (s : HostStorage) (object : ObjectId) : DecidablePred (s.WorksOn object) :=
  fun _ => inferInstanceAs (Decidable (_ ∧ _))

/-- No one else changes the host between the calls. -/
def Alone (state : List Disturbance × HostStorage) : Prop :=
  ∀ disturbance ∈ state.1, disturbance.host = id

theorem host_met (halone : Alone state) : (met state).host = state.2.host := by
  rw [met]
  cases hhead : state.1.head? with
  | none => rfl
  | some disturbance =>
    dsimp only
    rw [halone disturbance (List.mem_of_head? hhead), id]

theorem answer_of_disturbed {c : Call} {a : c.Answer} (hat : (c.positional?).isSome)
    (h : (disturbed root).perform c state = (.ok a, state')) :
    answer c (met state) = (.ok a, state'.2) ∧ state'.1 = state.1.tail := by
  simp only [disturbed] at h
  split at h
  · obtain ⟨hfails, _⟩ := Prod.mk.inj h
    cases hfails
  · have hpaths : (pathsOf c).all isReadable = true := by
      cases c <;> first | rfl | cases hat
    simp only [serving_perform root hpaths] at h
    obtain ⟨ha, rfl⟩ := Prod.mk.inj h
    exact ⟨Prod.ext ha rfl, rfl⟩

/-- What one call that works on a file does, if no one else changes the host. -/
theorem perform_hasImage {event : Event} (halone : Alone state)
    (hfile : state.2.host.HasImage object image) (hworks : state.2.WorksOn object event)
    (h : (disturbed root).perform event.call state = (event.result, state')) :
    Alone state' ∧ state'.2.files = state.2.files ∧
      state'.2.host.HasImage object (imageOf image event.call) ∧ event.Tells image := by
  obtain ⟨c, result⟩ := event
  obtain ⟨hobject, hok⟩ := hworks
  obtain ⟨file, hbound, rfl⟩ := Option.map_eq_some_iff.1 hobject
  obtain ⟨fd, hat, hfd⟩ := Option.bind_eq_some_iff.1 hbound
  cases result with
  | error e => cases hok
  | ok a =>
    obtain ⟨hanswer, hlater⟩ := answer_of_disturbed (by rw [hat]; rfl) h
    rw [← host_met halone] at hfile
    rw [← files_met] at hfd
    obtain ⟨himage, hfiles, htells⟩ := answer_hasImage hfile hfd hat hanswer
    exact ⟨fun d hd => halone d (List.mem_of_mem_tail (hlater ▸ hd)), hfiles.trans (files_met state),
      himage, htells⟩

/-- What calls that work on a file do one after the other, if no one else changes the host. -/
theorem answers_hasImage (halone : Alone state) (hfile : state.2.host.HasImage object image)
    (hworks : ∀ event ∈ events, state.2.WorksOn object event)
    (h : (disturbed root).Answers state events state') :
    Alone state' ∧ state'.2.files = state.2.files ∧
      state'.2.host.HasImage object (imageAfter image (events.map (·.call))) := by
  induction events generalizing state image with
  | nil =>
    obtain rfl : state' = state := h
    exact ⟨halone, rfl, hfile⟩
  | cons event events ih =>
    obtain ⟨mid, hcall, hrest⟩ := h
    obtain ⟨hmid, hfiles, himage, _⟩ :=
      perform_hasImage halone hfile (hworks event List.mem_cons_self) hcall
    obtain ⟨halone', hfiles', himage'⟩ := ih hmid himage (fun e he => by
      have := hworks e (List.mem_cons_of_mem _ he)
      rwa [WorksOn, ← hfiles] at this) hrest
    exact ⟨halone', hfiles'.trans hfiles, himage'⟩

theorem answers_tell {before after : List Event} {event : Event} (halone : Alone state)
    (hfile : state.2.host.HasImage object image)
    (hworks : ∀ e ∈ before ++ event :: after, state.2.WorksOn object e)
    (h : (disturbed root).Answers state (before ++ event :: after) state') :
    event.Tells (imageAfter image (before.map (·.call))) := by
  obtain ⟨mid, hbefore, next, hcall, _⟩ := Storage.answers_append.1 h
  obtain ⟨halone', hfiles, hmid⟩ := answers_hasImage halone hfile
    (fun e he => hworks e (List.mem_append_left _ he)) hbefore
  have hevent := hworks event (List.mem_append_right _ List.mem_cons_self)
  rw [WorksOn, ← hfiles] at hevent
  exact (perform_hasImage halone' hmid hevent hcall).2.2.2

/-- Over calls that succeed on descriptors of one file, each read gives what is there of the bytes that
were laid over the file before it.  After them a read gives the same however the host splits it, unless
it meets a failure on the way, and then it gives that failure; the positions at which it goes on are
numbers of 64 bits. -/
theorem positional_io_exact (root : Path) (object : ObjectId) (image : Bytes)
    (state state' : List Disturbance × HostStorage) (events : List Event) (halone : Alone state)
    (hfile : state.2.host.HasImage object image)
    (hworks : ∀ event ∈ events, state.2.WorksOn object event)
    (hanswers : (disturbed root).Answers state events state') :
    (∀ before after fd offset size data,
      events = before ++ ⟨.read fd offset size, .ok data⟩ :: after →
      data = ((imageAfter image (before.map (·.call))).drop offset.toNat).take size.toNat ∧
      ((imageAfter image (before.map (·.call))).length ≤ offset.toNat → data = [])) ∧
    state'.2.host.HasImage object (imageAfter image (events.map (·.call))) ∧
    ∀ fd writable (offset : UInt64) (size : UInt32) transfers,
      state'.2.files.get? fd = some ⟨object, writable⟩ → offset.toNat < positionLimit →
      let s := { state'.2 with transfers }
      let result := (answer (.read fd offset size) s).1
      (offset.toNat + size.toNat < positionLimit →
        (result = .ok (((imageAfter image (events.map (·.call))).drop offset.toNat).take size.toNat) ∨
          ∃ e, result = .error (.host e)) ∧
        ∀ e, result = .error (.host e) ↔
          MeetsFailure s.host object offset.toNat size.toNat transfers e) ∧
      ∀ rest filled,
        Rounds s.host object offset.toNat size.toNat (transfers, []) (rest, filled) →
        (offset + filled.length.toUInt64).toNat = offset.toNat + filled.length := by
  obtain ⟨_, _, himage⟩ := answers_hasImage halone hfile hworks hanswers
  refine ⟨?_, himage, ?_⟩
  · rintro before after fd offset size data rfl
    have hdata : data =
        ((imageAfter image (before.map (·.call))).drop offset.toNat).take size.toNat :=
      answers_tell halone hfile hworks hanswers
    refine ⟨hdata, fun hend => ?_⟩
    rw [hdata, List.drop_eq_nil_of_le hend, List.take_nil]
  · intro fd writable offset size transfers hfd hoffset s result
    have hs : s.files.get? fd = some ⟨object, writable⟩ := hfd
    refine ⟨fun hlimit => ⟨?_, fun e => ?_⟩, fun rest filled hrounds => ?_⟩
    · exact read_ok_or_error himage hs offset size
    · exact read_eq_error_iff himage hs hlimit
    · obtain ⟨content, hcontent, hholds⟩ := himage
      exact hrounds.position_eq hcontent hholds hoffset

/-- A file is written through two descriptors, cut in between and written behind its end; a read that is
split and interrupted gives its bytes with zeros in the gap, and one that meets a failure gives that. -/
theorem split_read_of_overwritten_file :
    let root : Path := ⟨[slash]⟩
    let path : Path := ⟨[slash, 0x61]⟩
    let created := (answer (.create path 0o644) (.new (Host.fresh 0 .epoch .fallback))).2
    let opened := (answer (.open path .readWrite) created).2
    let calm : Disturbance := ⟨id, [.oneAnd 1, .interrupted], none⟩
    let state := ([calm, calm, calm, calm], opened)
    let calls : List Call :=
      [.write 1 3 [65, 66, 67], .truncateOpen 2 4, .read 2 0 9, .write 2 6 [90]]
    let run := (calls.foldr (fun c next => .call c fun _ => next) (Program.done ())).run
      (disturbed root) state
    let split := { run.state.2 with transfers := [.oneAnd 0, .interrupted, .oneAnd 1] }
    let failing := { run.state.2 with transfers := [.oneAnd 1, .failed Errno.inputOutput] }
    opened.host.HasImage 1 [] ∧ (∀ event ∈ run.trace, opened.WorksOn 1 event) ∧
    run.state.2.host.HasImage 1 [0, 0, 0, 65, 0, 0, 90] ∧
    (answer (.read 1 2 10) split).1 = .ok [0, 65, 0, 0, 90] ∧
    (answer (.read 1 2 10) failing).1 = .error (.host Errno.inputOutput) := by
  intro root path created opened calm state calls run split failing
  have halone : Alone state := by
    intro disturbance hmem
    have hcalm : disturbance = calm := by simpa [state] using hmem
    rw [hcalm]
  have hfile : opened.host.HasImage 1 [] :=
    ⟨Content.empty, by decide +kernel, Content.holds_empty⟩
  have hworks : ∀ event ∈ run.trace, opened.WorksOn 1 event := by decide +kernel
  have hanswers := Program.run_answers (disturbed root)
    (calls.foldr (fun c next => .call c fun _ => next) (Program.done ())) state
  obtain ⟨_, himage, hreads⟩ :=
    positional_io_exact root 1 [] state run.state run.trace halone hfile hworks hanswers
  have hbytes : imageAfter [] (run.trace.map (·.call)) = [0, 0, 0, 65, 0, 0, 90] := by
    decide +kernel
  have hfd : run.state.2.files.get? 1 = some ⟨1, true⟩ := by decide +kernel
  have hok : (answer (.read 1 2 10) split).1.isOk = true := by decide +kernel
  have hpiece : run.state.2.host.pread 1 2 10 = .ok [0, 65, 0, 0, 90] := by decide +kernel
  rw [hbytes] at himage hreads
  clear_value run
  have hround : Round run.state.2.host 1 2 10 ([.oneAnd 1, .failed Errno.inputOutput], [])
      ([.failed Errno.inputOutput], [0, 65]) :=
    @Round.moved _ _ _ _ 1 _ [] 0 [65, 0, 0, 90] (by decide) hpiece
  refine ⟨hfile, hworks, himage, ?_, ?_⟩
  · rcases ((hreads 1 true 2 10 split.transfers hfd (by decide)).1 (by decide)).1 with hdata | ⟨e, he⟩
    · exact hdata
    · rw [he] at hok
      cases hok
  · apply (((hreads 1 true 2 10 failing.transfers hfd (by decide)).1 (by decide)).2 _).2
    exact ⟨[], [0, 65], .single hround, by decide⟩

end HostStorage
end InodeBridge
