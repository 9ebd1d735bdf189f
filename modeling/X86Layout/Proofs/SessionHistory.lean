import X86Layout.Proofs.LastEdit
import X86Layout.Proofs.ModeGrammar
import X86Layout.Session

namespace X86Layout.Session

namespace Step

def edit? : Step → Option OpcodeMap.Edit
  | edit e => some e
  | _ => none

/-- The steps that put a map to use. -/
def choosesMap : Step → Bool
  | build => true
  | usePrimary => true
  | _ => false

/-- The mode that a step sets, which is the one that its name stands for. A name that stands for no
mode sets none. -/
def mode? : Step → Option Mode
  | setMode name => Mode.all.find? (name.Means ·)
  | _ => none

theorem means_of_mode? {name : ModeName} {m : Mode} (h : (setMode name).mode? = some m) :
    name.Means m := by
  have hfound : Mode.all.find? (name.Means ·) = some m := h
  simpa using List.find?_some hfound

theorem mode?_setMode_eq_some_iff {name : ModeName} {m : Mode} :
    (setMode name).mode? = some m ↔ name.Means m := by
  refine ⟨means_of_mode?, ?_⟩
  intro h
  cases hfound : (setMode name).mode? with
  | none => exact absurd (decide_eq_true h) (List.find?_eq_none.mp hfound m m.mem_all)
  | some m' =>
    -- no name stands for two modes, since it is resolved to one
    have h' := means_of_mode? hfound
    rw [← ModeName.resolve_eq_ok_iff] at h h'
    rw [Except.ok.inj (h'.symm.trans h)]

end Step

/-- The changes to the draft among the steps. -/
def edits (steps : List Step) : List OpcodeMap.Edit := steps.filterMap Step.edit?

/-- What the map in use holds under a byte, told from the steps alone. The last step that chose a
map decides: behind a build it is what the edits before that build left of the draft, and in any
other case the primary map. -/
def filed (draft : OpcodeMap) (steps : List Step) (b : UInt8) : Option Opcode :=
  match steps.reverse.dropWhile (!·.choosesMap) with
  | .build :: earlier => draft.leftBy (edits earlier.reverse) b
  | _ => OpcodeMap.primary.get? b

/-- The mode that was set last, or else the one at the start. -/
def lastMode (mode : Mode) (steps : List Step) : Mode :=
  (steps.filterMap Step.mode?).getLast?.getD mode

def after (s : Session) (steps : List Step) : Session := steps.foldl next s

theorem after_append (s : Session) (steps more : List Step) :
    s.after (steps ++ more) = (s.after steps).after more :=
  List.foldl_append

theorem edits_concat_edit (steps : List Step) (e : OpcodeMap.Edit) :
    edits (steps ++ [.edit e]) = edits steps ++ [e] := by
  simp [edits, Step.edit?]

theorem edits_concat_other {step : Step} (h : step.edit? = none) (steps : List Step) :
    edits (steps ++ [step]) = edits steps := by
  simp [edits, h]

theorem lastMode_concat_some {step : Step} {m : Mode} (h : step.mode? = some m) (mode : Mode)
    (steps : List Step) : lastMode mode (steps ++ [step]) = m := by
  simp [lastMode, h]

theorem lastMode_concat_none {step : Step} (h : step.mode? = none) (mode : Mode)
    (steps : List Step) : lastMode mode (steps ++ [step]) = lastMode mode steps := by
  simp [lastMode, h]

theorem filed_concat_build (draft : OpcodeMap) (steps : List Step) (b : UInt8) :
    filed draft (steps ++ [.build]) b = draft.leftBy (edits steps) b := by
  simp [filed, Step.choosesMap]

theorem filed_concat_usePrimary (draft : OpcodeMap) (steps : List Step) (b : UInt8) :
    filed draft (steps ++ [.usePrimary]) b = OpcodeMap.primary.get? b := by
  simp [filed, Step.choosesMap]

theorem filed_concat_other {step : Step} (h : step.choosesMap = false) (draft : OpcodeMap)
    (steps : List Step) (b : UInt8) :
    filed draft (steps ++ [step]) b = filed draft steps b := by
  simp [filed, h]

/-- The state of a session agrees with the story of how it got there. -/
structure Tracks (mode : Mode) (draft : OpcodeMap) (steps : List Step) (s : Session) : Prop where
  edited : s.draft = draft.applyAll (edits steps)
  inUse : ∀ b, s.decoder.map.get? b = filed draft steps b
  inMode : s.decoder.mode = lastMode mode steps

variable {mode : Mode} {draft : OpcodeMap} {steps : List Step} {s : Session}

theorem tracks_start (mode : Mode) (draft : OpcodeMap) : Tracks mode draft [] (start mode draft) :=
  ⟨rfl, fun _ => rfl, rfl⟩

/-- A step that neither edits nor chooses anything leaves the whole state as it was. -/
theorem Tracks.idle {step : Step} (h : Tracks mode draft steps s) (hedit : step.edit? = none)
    (hmap : step.choosesMap = false) (hmode : step.mode? = none) :
    Tracks mode draft (steps ++ [step]) s where
  edited := (edits_concat_other hedit steps).symm ▸ h.edited
  inUse b := (filed_concat_other hmap draft steps b).symm ▸ h.inUse b
  inMode := (lastMode_concat_none hmode mode steps).symm ▸ h.inMode

theorem Tracks.next (h : Tracks mode draft steps s) (step : Step) :
    Tracks mode draft (steps ++ [step]) (s.next step) := by
  cases step with
  | edit e =>
    refine ⟨?_, fun b => ?_, ?_⟩
    · rw [edits_concat_edit, OpcodeMap.applyAll_append, ← h.edited]
      rfl
    · rw [filed_concat_other rfl]
      exact h.inUse b
    · rw [lastMode_concat_none rfl]
      exact h.inMode
  | build =>
    refine ⟨?_, fun b => ?_, ?_⟩
    · rw [edits_concat_other rfl]
      exact h.edited
    · -- the draft is put to use as the edits so far have left it
      rw [filed_concat_build, ← OpcodeMap.get?_applyAll, ← h.edited]
      rfl
    · rw [lastMode_concat_none rfl]
      exact h.inMode
  | usePrimary =>
    refine ⟨?_, fun b => ?_, ?_⟩
    · rw [edits_concat_other rfl]
      exact h.edited
    · rw [filed_concat_usePrimary]
      rfl
    · rw [lastMode_concat_none rfl]
      exact h.inMode
  | setMode name =>
    cases hname : name.resolve with
    | error e =>
      have hstay : s.next (.setMode name) = s := by simp only [Session.next, hname]
      have hmode : (Step.setMode name).mode? = none := by
        rw [Option.eq_none_iff_forall_ne_some]
        intro m hm
        rw [Step.mode?_setMode_eq_some_iff, ← ModeName.resolve_eq_ok_iff, hname] at hm
        cases hm
      rw [hstay]
      exact h.idle rfl rfl hmode
    | ok m =>
      have hset : s.next (.setMode name) = s.useMode m := by simp only [Session.next, hname]
      have hmode : (Step.setMode name).mode? = some m :=
        Step.mode?_setMode_eq_some_iff.mpr (ModeName.resolve_eq_ok_iff.mp hname)
      rw [hset]
      refine ⟨?_, fun b => ?_, ?_⟩
      · rw [edits_concat_other rfl]
        exact h.edited
      · rw [filed_concat_other rfl]
        exact h.inUse b
      · rw [lastMode_concat_some hmode]
        rfl
  | mode => exact h.idle rfl rfl rfl
  | lookup b => exact h.idle rfl rfl rfl
  | list => exact h.idle rfl rfl rfl
  | decode bytes => exact h.idle rfl rfl rfl

theorem Tracks.after (h : Tracks mode draft steps s) (more : List Step) :
    Tracks mode draft (steps ++ more) (s.after more) := by
  induction more generalizing steps s with
  | nil =>
    rw [List.append_nil]
    exact h
  | cons step more ih =>
    have hrest := ih (h.next step)
    rwa [List.append_assoc] at hrest

theorem tracks_after (mode : Mode) (draft : OpcodeMap) (steps : List Step) :
    Tracks mode draft steps ((start mode draft).after steps) :=
  (tracks_start mode draft).after steps

/-- The answer to a step is that of the state which the steps before it lead to. -/
theorem getElem?_run (s : Session) (steps : List Step) (step : Step) (rest : List Step) :
    (s.run (steps ++ step :: rest))[steps.length]? =
      some (((s.after steps).next step).answer step) := by
  induction steps generalizing s with
  | nil => rfl
  | cons first steps ih => exact ih (s.next first)

theorem decoder_after_edits (s : Session) (changes : List OpcodeMap.Edit) :
    (s.after (changes.map .edit)).decoder = s.decoder := by
  induction changes generalizing s with
  | nil => rfl
  | cons e changes ih => exact ih (s.next (.edit e))

/-- At every point of a session its decoder is the one that the steps so far ask for: in the mode
that was set last, with the map that was last put to use, and in that map every byte as the last
edit before the build has left it. Look-ups, listings and decodes are answered from that decoder
and no other, a listing has each mapped opcode once and in the order of the bytes, and further edits
do not reach what is in use. -/
theorem session_follows_history (mode : Mode) (draft : OpcodeMap) (steps : List Step) :
    ∃ map : OpcodeMap,
      (∀ b, map.get? b = filed draft steps b) ∧
      ((start mode draft).after steps).decoder = ⟨lastMode mode steps, map⟩ ∧
      (∀ changes : List OpcodeMap.Edit,
        ((start mode draft).after (steps ++ changes.map .edit)).decoder =
          ⟨lastMode mode steps, map⟩) ∧
      (∀ b rest, ((start mode draft).run (steps ++ .lookup b :: rest))[steps.length]? =
        some (.opcode (filed draft steps b))) ∧
      (∀ bytes rest, ((start mode draft).run (steps ++ .decode bytes :: rest))[steps.length]? =
        some (.decoded ((Decoder.mk (lastMode mode steps) map).run bytes))) ∧
      ∃ listed : List Opcode,
        (∀ rest, ((start mode draft).run (steps ++ .list :: rest))[steps.length]? =
          some (.opcodes listed)) ∧
        listed.Pairwise (fun o p => o.byte < p.byte) ∧
        (∀ o, o ∈ listed ↔ ∃ b, filed draft steps b = some o) ∧
        ∀ o ∈ listed, filed draft steps o.byte = some o := by
  obtain ⟨_, hmap, hmode⟩ := tracks_after mode draft steps
  let s := (start mode draft).after steps
  have hdecoder : s.decoder = ⟨lastMode mode steps, s.decoder.map⟩ := by rw [← hmode]
  refine ⟨s.decoder.map, hmap, hdecoder, ?_, ?_, ?_, s.decoder.map.toList, ?_,
    s.decoder.map.pairwise_toList, ?_, ?_⟩
  · intro changes
    rw [after_append, decoder_after_edits]
    exact hdecoder
  · intro b rest
    rw [getElem?_run, ← hmap]
    rfl
  · intro bytes rest
    rw [getElem?_run, ← hdecoder]
    rfl
  · intro rest
    rw [getElem?_run]
    rfl
  · intro o
    simp only [← hmap]
    exact List.mem_filterMap.trans ⟨fun ⟨b, _, hb⟩ => ⟨b, hb⟩,
      fun ⟨b, hb⟩ => ⟨b, OpcodeMap.mem_allBytes b, hb⟩⟩
  · intro o ho
    rw [← hmap]
    exact OpcodeMap.mem_toList.mp ho

/-- A row up to the last byte with a hole in it, a range that is the wrong way round, a build, an
edit that comes too late for it, and then two modes and a bitness that is none. -/
def patching : List Step :=
  [.edit (.insertRange 0xF1 0xFF (.named "row")), .edit (.erase 0xF5),
    .edit (.insertRange 0x91 0x90 (.named "none")), .build, .edit (.erase 0xFF),
    .setMode (.bitness 64), .setMode (.text " +032-bit"), .setMode (.bitness 8)]

theorem session_follows_history_patching :
    lastMode .bits16 (patching.take 6) = .bits64 ∧
      lastMode .bits16 patching = .bits32 ∧
      filed .primary patching 0xF5 = none ∧
      filed .primary patching 0x90 = OpcodeMap.primary.get? 0x90 ∧
      ∃ map listed, map.get? 0xFF = some { byte := 0xFF, mnemonic := "row" } ∧
        ((start .bits16 .primary).after patching).decoder = ⟨.bits32, map⟩ ∧
        ((start .bits16 .primary).run (patching ++ [.list]))[8]? = some (.opcodes listed) ∧
        { byte := 0xFF, mnemonic := "row" } ∈ listed ∧
        filed .primary patching 0xFF = some { byte := 0xFF, mnemonic := "row" } := by
  obtain ⟨map, hmap, hdecoder, _, _, _, listed, hlist, _, hmem, hback⟩ :=
    session_follows_history .bits16 .primary patching
  have hrow : filed .primary patching 0xFF = some { byte := 0xFF, mnemonic := "row" } := rfl
  have hin := (hmem _).mpr ⟨0xFF, hrow⟩
  exact ⟨rfl, rfl, rfl, rfl, map, listed, (hmap 0xFF).trans hrow, hdecoder, hlist [], hin,
    hback _ hin⟩

end X86Layout.Session
