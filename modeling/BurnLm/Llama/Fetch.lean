/-
# Fetching a file and resuming it

A file is streamed into a partial file beside its target and renamed into place
once it is whole. A partial file outlives the attempt and the process that wrote
it; the next request asks for the rest only, and whether the answer is appended
to what is there or replaces it is read off the answer's status. This module
shows that however the answers come, the partial file stays a beginning of the
server's content and nothing else is ever renamed into place.

The environment of an attempt is what the server answers to the range asked for,
and how the operations on the local files go.
-/

import Mathlib.Data.List.Infix

namespace BurnLm.Llama

universe u

variable {β : Type u}

/-- How many times a file is attempted before giving up. -/
def attemptLimit : ℕ := 8

/-- What a request is answered. The body is what of it arrived, and the copy's
error tells that the rest did not. -/
inductive Response (β : Type u)
  | unsent (error : String)
  | reply (status : ℕ) (contentLength : Option ℕ) (body : List β) (copyError : Option String)

/-- How the local file operations of an attempt go: each with an error, or
without. -/
structure LocalFiles where
  /-- Reading the length of the partial file, before the request. -/
  measured : Option String
  removed : Option String
  opened : Option String
  statted : Option String
  renamed : Option String

/-- How what precedes the attempts goes: making the directory, and then a
client. -/
structure Setup where
  created : Option String
  built : Option String

/-- One attempt's environment: the local operations, and the answer to a request
from some byte on. -/
structure Turn (β : Type u) where
  files : LocalFiles
  answer : ℕ → Response β

/-- The partial file and the target. -/
structure CacheFiles (β : Type u) where
  part : Option (List β)
  target : Option (List β)

/-- Why an attempt is made again. -/
inductive LastError
  | none
  | rejectedResume (start : ℕ)
  | returned (status : ℕ)
  | interrupted (error : String)
  | short (written expected : ℕ)
  | unsent (error : String)
  deriving DecidableEq, Repr

/-- Why a fetch fails. -/
inductive FetchError
  | createDir (error : String)
  | buildClient (error : String)
  | gated (status : ℕ)
  | openPart (error : String)
  | statPart (error : String)
  | movePart (error : String)
  | exhausted (last : LastError)
  deriving DecidableEq, Repr

/-- How a fetch that does not fail ends. -/
inductive Fetched
  | found
  | missing
  deriving DecidableEq, Repr

/-- What the texts of the errors name. -/
structure FetchNames where
  url : String
  name : String
  repoId : String
  dir : String
  partialPath : String
  showStatus : ℕ → String

def LastError.text (names : FetchNames) : LastError → String
  | .none => ""
  | .rejectedResume start => names.url ++ " rejected a resume from byte " ++ toString start
  | .returned status => names.url ++ " returned " ++ names.showStatus status
  | .interrupted error => names.url ++ " download interrupted: " ++ error
  | .short written expected =>
    names.url ++ " gave " ++ toString written ++ " of " ++ toString expected ++ " bytes"
  | .unsent error => names.url ++ ": " ++ error

def FetchError.text (names : FetchNames) : FetchError → String
  | .createDir error => "could not create " ++ names.dir ++ ": " ++ error
  | .buildClient error => "could not build an HTTP client: " ++ error
  | .gated status =>
    names.url ++ " is gated (" ++ names.showStatus status ++
      "); set HF_TOKEN to an account that has accepted its licence, or use an open mirror " ++
      "of the same weights"
  | .openPart error => "could not open " ++ names.partialPath ++ ": " ++ error
  | .statPart error => "could not stat " ++ names.partialPath ++ ": " ++ error
  | .movePart error => "could not move " ++ names.partialPath ++ " into place: " ++ error
  | .exhausted last =>
    "could not download " ++ names.name ++ " from " ++ names.repoId ++ " after " ++
      toString attemptLimit ++ " attempts. Last error: " ++ last.text names

/-! ## One attempt -/

namespace CacheFiles

/-- Bytes of the partial file, as the attempt measures them. -/
def haveBytes (files : CacheFiles β) (localFiles : LocalFiles) : ℕ :=
  if localFiles.measured.isSome then 0 else (files.part.map List.length).getD 0

/-- The partial file removed, if that goes well. -/
def removePart (files : CacheFiles β) (localFiles : LocalFiles) : CacheFiles β :=
  if localFiles.removed.isSome then files else { files with part := none }

/-- How an attempt ends: it is made again, or the fetch is over. -/
abbrev Outcome : Type := Sum LastError (Except FetchError Fetched)

/-- What is made of the bytes that are in the partial file once the copy is
over. -/
def settle (files : CacheFiles β) (localFiles : LocalFiles) (data : List β)
    (expected : Option ℕ) (copyError : Option String) : Outcome × CacheFiles β :=
  let files := { files with part := some data }
  match copyError with
  | some error => (.inl (.interrupted error), files)
  | none =>
    match localFiles.statted with
    | some error => (.inr (.error (.statPart error)), files)
    | none =>
      match expected.filter (fun expected => data.length ≠ expected) with
      | some expected => (.inl (.short data.length expected), files)
      | none =>
        match localFiles.renamed with
        | some error => (.inr (.error (.movePart error)), files)
        | none => (.inr (.ok .found), { part := none, target := some data })

/-- The body of an answer that is a success, taken into the partial file. -/
def receive (files : CacheFiles β) (localFiles : LocalFiles) (start status : ℕ)
    (contentLength : Option ℕ) (body : List β) (copyError : Option String) :
    Outcome × CacheFiles β :=
  -- A server that honoured the range appends, one that ignored it starts again.
  let resuming := 0 < start ∧ status = 206
  let expected := contentLength.map fun length => if resuming then start + length else length
  match localFiles.opened with
  | some error => (.inr (.error (.openPart error)), files)
  | none =>
    files.settle localFiles ((if resuming then files.part.getD [] else []) ++ body) expected
      copyError

def attempt (files : CacheFiles β) (turn : Turn β) : Outcome × CacheFiles β :=
  let start := files.haveBytes turn.files
  match turn.answer start with
  | .unsent error => (.inl (.unsent error), files)
  | .reply status contentLength body copyError =>
    if status = 404 then (.inr (.ok .missing), files.removePart turn.files)
    else if status = 401 ∨ status = 403 then (.inr (.error (.gated status)), files)
    else if status = 416 then (.inl (.rejectedResume start), files.removePart turn.files)
    else if ¬ (200 ≤ status ∧ status < 300) then (.inl (.returned status), files)
    else files.receive turn.files start status contentLength body copyError

/-- The attempts that are left, and the files after each. -/
def attempts (turns : ℕ → Turn β) : ℕ → ℕ → LastError → CacheFiles β →
    Except FetchError Fetched × List (CacheFiles β)
  | 0, _, last, _ => (.error (.exhausted last), [])
  | left + 1, number, _, files =>
    match files.attempt (turns number) with
    | (.inl last, after) =>
      let rest := attempts turns left (number + 1) last after
      (rest.1, after :: rest.2)
    | (.inr result, after) => (result, [after])

/-- A file is fetched unless it is there. -/
def fetch (files : CacheFiles β) (setup : Setup) (turns : ℕ → Turn β) :
    Except FetchError Fetched × List (CacheFiles β) :=
  if files.target.isSome then (.ok .found, [])
  else
    match setup.created with
    | some error => (.error (.createDir error), [])
    | none =>
      match setup.built with
      | some error => (.error (.buildClient error), [])
      | none => attempts turns attemptLimit 1 .none files

/-- The files a fetch leaves. -/
def afterFetch (files : CacheFiles β) (setup : Setup) (turns : ℕ → Turn β) : CacheFiles β :=
  (files.fetch setup turns).2.getLastD files

end CacheFiles

/-! ## A server with a fixed content -/

/-- A body is a beginning of what it should be. One that was cut off is told by
an error of the copy, or is shorter than announced. -/
structure Delivers (full : List β) (contentLength : Option ℕ) (body : List β)
    (copyError : Option String) : Prop where
  isPrefix : body <+: full
  told : body ≠ full → copyError.isSome ∨ ∃ length, contentLength = some length ∧
    body.length < length

/-- Answers of a server with a fixed content, asked for it from some byte on.
Besides its own two kinds of success it may answer with any failure. -/
def Honest (content : List β) (start : ℕ) : Response β → Prop
  | .unsent _ => True
  | .reply status contentLength body copyError =>
    (status = 200 ∧ Delivers content contentLength body copyError) ∨
      (status = 206 ∧ Delivers (content.drop start) contentLength body copyError) ∨
      ¬ (200 ≤ status ∧ status < 300)

/-- The partial file, if there is one, is a beginning of the content. -/
def CacheFiles.Partial (content : List β) (files : CacheFiles β) : Prop :=
  ∀ data, files.part = some data → data <+: content

/-- The target is as it was, or was made with exactly the content. -/
def CacheFiles.Made (content : List β) (before after : CacheFiles β) : Prop :=
  after.target = before.target ∨ after.target = some content

namespace CacheFiles

variable {content : List β}

theorem Partial.removePart {files : CacheFiles β} (hpart : files.Partial content)
    (localFiles : LocalFiles) : (files.removePart localFiles).Partial content := by
  unfold CacheFiles.removePart
  split
  · exact hpart
  · exact nofun

theorem target_removePart (files : CacheFiles β) (localFiles : LocalFiles) :
    (files.removePart localFiles).target = files.target := by
  unfold CacheFiles.removePart
  split <;> rfl

/-- The bytes an attempt counts are those of the partial file. -/
theorem exists_part_of_haveBytes_pos {files : CacheFiles β} {localFiles : LocalFiles}
    (hpos : 0 < files.haveBytes localFiles) :
    ∃ data, files.part = some data ∧ files.haveBytes localFiles = data.length := by
  unfold haveBytes at hpos ⊢
  split at hpos
  · exact absurd hpos (lt_irrefl 0)
  · rename_i hmeasured
    rw [if_neg hmeasured]
    rcases hpart : files.part with _ | data
    · simp [hpart] at hpos
    · exact ⟨data, rfl, rfl⟩

/-- What a success leaves in the partial file is a beginning of the content, and
if it is not all of it then the copy failed or the length announced is not
reached. -/
theorem received_prefix {files : CacheFiles β} {localFiles : LocalFiles} {status : ℕ}
    {contentLength : Option ℕ} {body : List β} {copyError : Option String}
    (hpart : files.Partial content)
    (hhonest : Honest content (files.haveBytes localFiles)
      (.reply status contentLength body copyError))
    (hsuccess : 200 ≤ status ∧ status < 300) :
    let start := files.haveBytes localFiles
    let resuming := 0 < start ∧ status = 206
    let data := (if resuming then files.part.getD [] else []) ++ body
    data <+: content ∧ (data ≠ content → copyError.isSome ∨
      ∃ expected, contentLength.map
        (fun length => if resuming then start + length else length) = some expected ∧
          data.length < expected) := by
  intro start resuming data
  have hwhole (hresuming : ¬ resuming) (hbody : Delivers content contentLength body copyError) :
      data <+: content ∧ (data ≠ content → copyError.isSome ∨
        ∃ expected, contentLength.map
          (fun length => if resuming then start + length else length) = some expected ∧
            data.length < expected) := by
    have hdata : data = body := by simp only [data, if_neg hresuming, List.nil_append]
    rw [hdata]
    refine ⟨hbody.isPrefix, fun hne => (hbody.told hne).imp_right ?_⟩
    rintro ⟨length, hlength, hshort⟩
    exact ⟨length, by rw [hlength, Option.map_some, if_neg hresuming], hshort⟩
  rcases hhonest with ⟨hstatus, hbody⟩ | ⟨hstatus, hbody⟩ | hfailure
  · exact hwhole (fun hresuming => by simp [hresuming.2] at hstatus) hbody
  · by_cases hstart : 0 < start
    · -- The rest of the content, behind what is there.
      obtain ⟨before, hbefore, hlength⟩ := exists_part_of_haveBytes_pos hstart
      have hresuming : resuming := ⟨hstart, hstatus⟩
      have hdata : data = before ++ body := by
        simp only [data, if_pos hresuming, hbefore, Option.getD_some]
      obtain ⟨tail, rfl⟩ := hpart before hbefore
      rw [hlength, List.drop_left] at hbody
      rw [hdata]
      refine ⟨(List.prefix_append_right_inj before).mpr hbody.isPrefix, fun hne => ?_⟩
      refine (hbody.told fun hsame => hne (by rw [hsame])).imp_right ?_
      rintro ⟨length, hannounced, hshort⟩
      refine ⟨start + length, by rw [hannounced, Option.map_some, if_pos hresuming], ?_⟩
      rw [List.length_append, show start = before.length from hlength]
      exact Nat.add_lt_add_left hshort _
    · rw [show files.haveBytes localFiles = 0 from Nat.eq_zero_of_not_pos hstart,
        List.drop_zero] at hbody
      exact hwhole (fun hresuming => hstart hresuming.1) hbody
  · exact absurd hsuccess hfailure

/-- What an attempt leaves, and what its end says. -/
structure Attempted (content : List β) (files : CacheFiles β) (result : Outcome × CacheFiles β) :
    Prop where
  part : result.2.Partial content
  target : files.Made content result.2
  found : result.1 = .inr (.ok .found) → result.2.target = some content

/-- An attempt over which the target is left alone. -/
theorem Attempted.of_kept {files after : CacheFiles β} {outcome : Outcome}
    (hpart : after.Partial content) (htarget : after.target = files.target)
    (hfound : outcome ≠ .inr (.ok .found)) : Attempted content files (outcome, after) :=
  ⟨hpart, Or.inl htarget, fun h => absurd h hfound⟩

/-- A beginning of the content that is told when it is not all of it may be
settled. -/
theorem attempted_settle {files : CacheFiles β} {localFiles : LocalFiles} {data : List β}
    {expected : Option ℕ} {copyError : Option String} (hbegins : data <+: content)
    (htold : data ≠ content → copyError.isSome ∨
      ∃ length, expected = some length ∧ data.length < length) :
    Attempted content files (files.settle localFiles data expected copyError) := by
  have hpart : CacheFiles.Partial content { files with part := some data } := by
    rintro _ ⟨⟩
    exact hbegins
  unfold settle
  rcases copyError with _ | error
  · rcases localFiles.statted with _ | error
    · rcases hshort : expected.filter (fun expected => data.length ≠ expected) with _ | short
      · rcases localFiles.renamed with _ | error
        · -- Neither the copy nor the length told of a cut: this is the content.
          have hwhole : data = content := by
            by_contra hne
            rcases htold hne with herror | ⟨length, rfl, hless⟩
            · simp at herror
            · simp [Option.filter, hless.ne] at hshort
          exact ⟨nofun, Or.inr (by rw [hwhole]), fun _ => by rw [hwhole]⟩
        · exact .of_kept hpart rfl (by simp)
      · exact .of_kept hpart rfl (by simp)
    · exact .of_kept hpart rfl (by simp)
  · exact .of_kept hpart rfl (by simp)

theorem attempted_receive {files : CacheFiles β} {localFiles : LocalFiles} {status : ℕ}
    {contentLength : Option ℕ} {body : List β} {copyError : Option String}
    (hpart : files.Partial content)
    (hhonest : Honest content (files.haveBytes localFiles)
      (.reply status contentLength body copyError))
    (hsuccess : 200 ≤ status ∧ status < 300) :
    Attempted content files (files.receive localFiles (files.haveBytes localFiles) status
      contentLength body copyError) := by
  obtain ⟨hbegins, htold⟩ := received_prefix hpart hhonest hsuccess
  unfold receive
  rcases localFiles.opened with _ | error
  · exact attempted_settle hbegins htold
  · exact .of_kept hpart rfl (by simp)

/-- **One attempt.** Whatever the answer and however the local operations go, the
partial file stays a beginning of the content, and nothing but the content
becomes the target. -/
theorem attempted {files : CacheFiles β} {turn : Turn β} (hpart : files.Partial content)
    (hhonest : ∀ start, Honest content start (turn.answer start)) :
    Attempted content files (files.attempt turn) := by
  have hanswer := hhonest (files.haveBytes turn.files)
  rcases hcase : turn.answer (files.haveBytes turn.files) with
    error | ⟨status, contentLength, body, copyError⟩
  · simp only [attempt, hcase]
    exact .of_kept hpart rfl (by simp)
  rw [hcase] at hanswer
  simp only [attempt, hcase]
  by_cases hmissing : status = 404
  · rw [if_pos hmissing]
    exact .of_kept (hpart.removePart _) (target_removePart _ _) (by simp)
  rw [if_neg hmissing]
  by_cases hgated : status = 401 ∨ status = 403
  · rw [if_pos hgated]
    exact .of_kept hpart rfl (by simp)
  rw [if_neg hgated]
  by_cases hrange : status = 416
  · rw [if_pos hrange]
    exact .of_kept (hpart.removePart _) (target_removePart _ _) (by simp)
  rw [if_neg hrange]
  by_cases hsuccess : 200 ≤ status ∧ status < 300
  · rw [if_neg (not_not.mpr hsuccess)]
    exact attempted_receive hpart hanswer hsuccess
  · rw [if_pos hsuccess]
    exact .of_kept hpart rfl (by simp)

/-! ## The retry loop and later fetches -/

/-- The files after every attempt of a loop, and how the loop ends. -/
structure Tried (content : List β) (limit : ℕ) (files : CacheFiles β)
    (run : Except FetchError Fetched × List (CacheFiles β)) : Prop where
  /-- No more attempts are made than there are. -/
  limited : run.2.length ≤ limit
  part : ∀ after ∈ run.2, after.Partial content
  target : ∀ after ∈ run.2, files.Made content after
  found : run.1 = .ok .found → (run.2.getLastD files).target = some content

theorem Made.trans {first second third : CacheFiles β} (hfirst : first.Made content second)
    (hsecond : second.Made content third) : first.Made content third := by
  rcases hsecond with hsame | hmade
  · exact hfirst.imp (fun htarget => hsame.trans htarget) fun hmade => hsame.trans hmade
  · exact Or.inr hmade

/-- What every attempt keeps, the loop keeps. -/
theorem tried_attempts {turns : ℕ → Turn β}
    (hhonest : ∀ number start, Honest content start ((turns number).answer start)) (left : ℕ) :
    ∀ (number : ℕ) (last : LastError) {files : CacheFiles β}, files.Partial content →
      Tried content left files (attempts turns left number last files) := by
  induction left with
  | zero =>
      intro number last files _
      exact ⟨le_rfl, by simp [attempts], by simp [attempts], by simp [attempts]⟩
  | succ left ih =>
      intro number last files hpart
      have hattempt := attempted hpart (hhonest number)
      rw [attempts]
      rcases hresult : files.attempt (turns number) with ⟨last' | result, after⟩
      · rw [hresult] at hattempt
        have hrest := ih (number + 1) last' hattempt.part
        refine ⟨Nat.succ_le_succ hrest.limited, ?_, ?_, ?_⟩
        · rintro other (_ | ⟨_, hother⟩)
          · exact hattempt.part
          · exact hrest.part other hother
        · rintro other (_ | ⟨_, hother⟩)
          · exact hattempt.target
          · exact hattempt.target.trans (hrest.target other hother)
        · intro hfound
          rw [List.getLastD_cons]
          exact hrest.found hfound
      · rw [hresult] at hattempt
        refine ⟨Nat.succ_le_succ (Nat.zero_le _), ?_, ?_, ?_⟩
        · intro other hother
          rw [List.mem_singleton.mp hother]
          exact hattempt.part
        · intro other hother
          rw [List.mem_singleton.mp hother]
          exact hattempt.target
        · intro hfound
          exact hattempt.found (congrArg Sum.inr hfound)

/-- A fetch finds its target there, fails before any attempt, or is the loop. -/
theorem fetch_cases (files : CacheFiles β) (setup : Setup) (turns : ℕ → Turn β) :
    (files.target ≠ none ∧ files.fetch setup turns = (.ok .found, [])) ∨
      (∃ error, files.fetch setup turns = (.error error, [])) ∨
      (files.target = none ∧
        files.fetch setup turns = attempts turns attemptLimit 1 .none files) := by
  unfold fetch
  rcases files.target with _ | held
  · rcases setup.created with _ | error
    · rcases setup.built with _ | error
      · exact Or.inr (Or.inr ⟨rfl, rfl⟩)
      · exact Or.inr (Or.inl ⟨_, rfl⟩)
    · exact Or.inr (Or.inl ⟨_, rfl⟩)
  · exact Or.inl ⟨by simp, rfl⟩

/-- **A fetch never yields a wrong file.** From any leftover that is a beginning
of the content, after every attempt the partial file is a beginning of the
content, and a target that was not there is there with exactly the content or
not at all; a target that was there is left alone. No more attempts are made
than the limit, and a fetch that finds the file where there was none finds the
content. -/
theorem fetch_sound (content : List β) (setup : Setup) {turns : ℕ → Turn β}
    (hhonest : ∀ number start, Honest content start ((turns number).answer start))
    {files : CacheFiles β} (hpart : files.Partial content) :
    (files.fetch setup turns).2.length ≤ attemptLimit ∧
      (∀ after ∈ (files.fetch setup turns).2, after.Partial content ∧
        (after.target = files.target ∨ (files.target = none ∧ after.target = some content))) ∧
      (files.target = none → (files.fetch setup turns).1 = .ok .found →
        (files.afterFetch setup turns).target = some content) := by
  unfold afterFetch
  rcases fetch_cases files setup turns with ⟨hheld, hrun⟩ | ⟨error, hrun⟩ | ⟨hnone, hrun⟩
  · rw [hrun]
    exact ⟨Nat.zero_le _, by simp, fun hnone => absurd hnone hheld⟩
  · rw [hrun]
    exact ⟨Nat.zero_le _, by simp, by simp⟩
  · have htried := tried_attempts hhonest attemptLimit 1 .none hpart
    rw [hrun]
    exact ⟨htried.limited, fun after hafter => ⟨htried.part after hafter,
      (htried.target after hafter).imp_right fun hmade => ⟨hnone, hmade⟩⟩, fun _ => htried.found⟩

/-- A server that announces the length and may cut the body off. -/
theorem delivers_take (full : List β) (count : ℕ) :
    Delivers full (some full.length) (full.take count) none := by
  refine ⟨List.take_prefix _ _, fun hne => Or.inr ⟨_, rfl, ?_⟩⟩
  refine lt_of_le_of_ne (List.length_take_le' _ _) fun hlength => hne ?_
  exact (List.take_prefix _ _).eq_of_length hlength

/-- One byte of three is there. The first answer brings one more, the second the
rest. -/
def resumedTurns : ℕ → Turn ℕ := fun number =>
  { files := ⟨none, none, none, none, none⟩
    answer := fun start => .reply 206 (some (([1, 2, 3] : List ℕ).drop start).length)
      ((([1, 2, 3] : List ℕ).drop start).take (if number = 1 then 1 else 3)) none }

theorem honest_resumedTurns (number start : ℕ) :
    Honest [1, 2, 3] start ((resumedTurns number).answer start) :=
  Or.inr (Or.inl ⟨rfl, delivers_take _ _⟩)

theorem fetch_sound_resumed :
    CacheFiles.fetch ⟨some [1], none⟩ ⟨none, none⟩ resumedTurns =
        (.ok .found, [⟨some [1, 2], none⟩, ⟨none, some [1, 2, 3]⟩]) ∧
      (CacheFiles.afterFetch ⟨some [1], none⟩ ⟨none, none⟩ resumedTurns).target = some [1, 2, 3] :=
  ⟨rfl, (fetch_sound [1, 2, 3] ⟨none, none⟩ honest_resumedTurns (fun data hdata => by
    obtain rfl := Option.some.inj hdata
    decide)).2.2 rfl rfl⟩

/-- One fetch after another, each on what the last one left. -/
def afterFetches (files : CacheFiles β) :
    List (Setup × (ℕ → Turn β)) → CacheFiles β
  | [] => files
  | (setup, turns) :: later => (files.afterFetch setup turns).afterFetches later

/-- What one fetch leaves to the next. -/
theorem afterFetch_kept {content : List β} {setup : Setup} {turns : ℕ → Turn β}
    (hhonest : ∀ number start, Honest content start ((turns number).answer start))
    {files : CacheFiles β} (hpart : files.Partial content) :
    (files.afterFetch setup turns).Partial content ∧
      files.Made content (files.afterFetch setup turns) := by
  unfold afterFetch
  rcases fetch_cases files setup turns with ⟨-, hrun⟩ | ⟨error, hrun⟩ | ⟨-, hrun⟩
  · rw [hrun]
    exact ⟨hpart, Or.inl rfl⟩
  · rw [hrun]
    exact ⟨hpart, Or.inl rfl⟩
  · have htried := tried_attempts hhonest attemptLimit 1 .none hpart
    rw [hrun]
    rcases List.eq_nil_or_concat' (attempts turns attemptLimit 1 .none files).2 with
      hnil | ⟨before, after, hlast⟩
    · rw [hnil]
      exact ⟨hpart, Or.inl rfl⟩
    · have hafter : after ∈ (attempts turns attemptLimit 1 .none files).2 := by
        rw [hlast]
        simp
      rw [hlast, List.getLastD_concat]
      exact ⟨htried.part after hafter, htried.target after hafter⟩

/-- **Fetches over many processes.** However often a file is fetched and however
the answers come, what is left is a beginning of the content, and a target made
on the way is the content. -/
theorem afterFetches_kept {content : List β} (fetches : List (Setup × (ℕ → Turn β)))
    (hhonest : ∀ attempted ∈ fetches, ∀ number start,
      Honest content start ((attempted.2 number).answer start)) :
    ∀ {files : CacheFiles β}, files.Partial content →
      (files.afterFetches fetches).Partial content ∧
        files.Made content (files.afterFetches fetches) := by
  induction fetches with
  | nil => exact fun hpart => ⟨hpart, Or.inl rfl⟩
  | cons first later ih =>
      intro files hpart
      obtain ⟨hkept, hmade⟩ := @afterFetch_kept _ _ first.1 _
        (hhonest first List.mem_cons_self) _ hpart
      obtain ⟨hpart', hmade'⟩ := ih
        (fun attempted hattempted => hhonest attempted (List.mem_cons_of_mem _ hattempted)) hkept
      exact ⟨hpart', hmade.trans hmade'⟩

end CacheFiles

end BurnLm.Llama
