import X86Layout.Decoder.Progress
import X86Layout.Proofs.PrefixRun
import X86Layout.Proofs.Reading

namespace X86Layout.Decoder

def readAddressing (mode : Mode) (o : Opcode) : ReadM (Option Addressing) :=
  if o.hasModRM then some <$> Addressing.read mode else pure none

def readImmediate : Option Width → ReadM (Option Immediate)
  | some w => some <$> Immediate.read w
  | none => pure none

/-- What is read behind an opcode. The map has no part in it any more. -/
def readFields (mode : Mode) (size : OperandSize) (o : Opcode) : ReadM Body := do
  let addressing ← readAddressing mode o
  let immediate ← readImmediate (o.immediateWidth? addressing size)
  return { opcode := o, addressing, immediate }

def readBody (d : Decoder) (size : OperandSize) : ReadM Body :=
  d.readOpcode >>= readFields d.mode size

/-- The instruction read without a log. -/
def readInstruction (d : Decoder) : ReadM Instruction := do
  let prefixes ← readPrefixes d.mode
  let body ← d.readBody (d.operandSize prefixes)
  return body.instruction d.mode prefixes (← get).position

section Narrates

variable {α β : Type} {x : DecodeM α} {y : ReadM α} {told : Reader → Log}

/-- The logging action has the outcome of the silent one and leaves the reader where it does. On
the way it says what `told` has to say of the place it starts from. -/
def Narrates (loud : DecodeM α) (silent : ReadM α) (told : Reader → Log) : Prop :=
  ∀ s, ∃ reader,
    loud.run.run s =
      ((silent.run s.reader).map Prod.fst, ⟨reader, s.log ++ told s.reader⟩) ∧
    ∀ a after, silent.run s.reader = .ok (a, after) → reader = after

/-- What is said behind an action, of what it read and where it stopped. Behind a failure it is
nothing. -/
def toldAfter (action : ReadM α) (next : α → Reader → Log) (r : Reader) : Log :=
  match action.run r with
  | .ok (a, after) => next a after
  | .error _ => []

theorem toldAfter_of_ok {action : ReadM α} {next : α → Reader → Log} {r after : Reader} {a : α}
    (h : action.run r = .ok (a, after)) : toldAfter action next r = next a after := by
  rw [toldAfter, h]

theorem toldAfter_of_error {action : ReadM α} {next : α → Reader → Log} {r : Reader}
    {e : DecodeError} (h : action.run r = .error e) : toldAfter action next r = [] := by
  rw [toldAfter, h]

theorem toldAfter_nil (action : ReadM α) (r : Reader) :
    toldAfter action (fun _ _ => []) r = [] := by
  unfold toldAfter
  cases action.run r <;> rfl

theorem toldAfter_map (f : α → β) (action : ReadM α) (next : β → Reader → Log) :
    toldAfter (f <$> action) next = toldAfter action fun a => next (f a) := by
  funext r
  unfold toldAfter
  rw [StateT.run_map]
  cases action.run r <;> rfl

theorem Narrates.pure (a : α) : Narrates (Pure.pure a) (Pure.pure a) fun _ => [] := by
  intro s
  refine ⟨s.reader, ?_, ?_⟩
  · rw [List.append_nil]
    rfl
  · intro b after h
    exact (ReadM.pure_ok.mp h).2.symm

theorem narrates_read (action : ReadM α) : Narrates (read action) action fun _ => [] := by
  intro s
  rw [run_read, List.append_nil]
  cases action.run s.reader with
  | error e =>
    refine ⟨s.reader, rfl, ?_⟩
    intro a after h
    cases h
  | ok pair =>
    refine ⟨pair.2, rfl, ?_⟩
    intro a after h
    cases h
    rfl

theorem Narrates.emit {k : Unit → DecodeM α} (entry : Log.Entry) (hk : Narrates (k ()) y told) :
    Narrates (Decoder.emit entry >>= k) y fun r => entry :: told r := by
  intro s
  obtain ⟨reader, hrun, hreader⟩ := hk { s with log := s.log ++ [entry] }
  refine ⟨reader, ?_, hreader⟩
  rw [List.append_assoc] at hrun
  exact hrun

theorem Narrates.bind {f : α → DecodeM β} {g : α → ReadM β} {next : α → Reader → Log}
    (hx : Narrates x y told) (hf : ∀ a, Narrates (f a) (g a) (next a)) :
    Narrates (x >>= f) (y >>= g) fun r => told r ++ toldAfter y next r := by
  intro s
  obtain ⟨mid, hrun, hmid⟩ := hx s
  simp only [ExceptT.run_bind, StateT.run_bind, hrun]
  cases hy : y.run s.reader with
  | error e =>
    -- what was said before the failure stays said
    refine ⟨mid, ?_, ?_⟩
    · rw [toldAfter_of_error hy, List.append_nil]
      rfl
    · intro b after h
      cases h
  | ok pair =>
    obtain ⟨a, after⟩ := pair
    obtain rfl := hmid a after hy
    obtain ⟨reader, hrun', hreader⟩ := hf a ⟨mid, s.log ++ told s.reader⟩
    refine ⟨reader, ?_, hreader⟩
    rw [toldAfter_of_ok hy, ← List.append_assoc]
    exact hrun'

theorem Narrates.congr {told' : Reader → Log} (h : Narrates x y told)
    (htold : ∀ r, told r = told' r) : Narrates x y told' :=
  funext htold ▸ h

theorem Narrates.bind_silent {f : α → DecodeM β} {g : α → ReadM β} (hx : Narrates x y told)
    (hf : ∀ a, Narrates (f a) (g a) fun _ => []) : Narrates (x >>= f) (y >>= g) told := by
  refine (hx.bind hf).congr ?_
  intro r
  rw [toldAfter_nil, List.append_nil]

theorem narrates_position (f : Nat → α) :
    Narrates (do return f (← get).reader.position) (do return f (← get).position)
      fun _ => [] := by
  intro s
  refine ⟨s.reader, ?_, ?_⟩
  · rw [List.append_nil]
    rfl
  · intro a after h
    cases h
    rfl

/-- Reading first and telling then. -/
theorem narrates_read_emit (action : ReadM α) (entry : α → Log.Entry) (f : α → β) :
    Narrates (do let a ← read action; Decoder.emit (entry a); return f a) (f <$> action)
      (toldAfter action fun a _ => [entry a]) := by
  rw [← bind_pure_comp]
  exact (narrates_read action).bind fun a => .emit (entry a) (.pure (f a))

theorem narrates_prefixes (d : Decoder) :
    Narrates d.prefixes (readPrefixes d.mode)
      fun r => [prefixesEvent (Prefix.run d.mode r.rest).length] := by
  rw [← id_map (readPrefixes d.mode)]
  exact narrates_read_emit _ _ id

theorem narrates_opcode (d : Decoder) :
    Narrates d.opcode d.readOpcode (toldAfter d.readOpcode fun o _ => [opcodeEvent o]) := by
  have h := narrates_read_emit d.readOpcode opcodeEvent id
  rwa [id_map] at h

theorem narrates_addressing (d : Decoder) (o : Opcode) :
    Narrates (d.addressing o) (readAddressing d.mode o)
      (toldAfter (readAddressing d.mode o) fun a _ => (a.map addressingEvent).toList) := by
  unfold addressing readAddressing
  split
  · rw [toldAfter_map]
    exact narrates_read_emit _ _ some
  · exact .pure none

theorem narrates_immediate (w : Option Width) :
    Narrates (immediate w) (readImmediate w) fun _ => (w.map immediateEvent).toList := by
  cases w with
  | none => exact .pure none
  | some w =>
    rw [readImmediate, ← bind_pure_comp]
    exact .emit _ ((narrates_read _).bind_silent fun i => .pure (some i))

def fieldEvents (o : Opcode) (a : Option Addressing) (w : Option Width) : Log :=
  opcodeEvent o :: ((a.map addressingEvent).toList ++ (w.map immediateEvent).toList)

/-- What is said behind the prefixes. The size of an immediate is told whether or not its bytes are
there. -/
def account (d : Decoder) (size : OperandSize) (r : Reader) : Log :=
  match d.readOpcode.run r with
  | .error _ => []
  | .ok (o, r) =>
    match (readAddressing d.mode o).run r with
    | .error _ => fieldEvents o none none
    | .ok (a, _) => fieldEvents o a (o.immediateWidth? a size)

theorem narrates_body (d : Decoder) (size : OperandSize) :
    Narrates (d.body size) (d.readBody size) (d.account size) := by
  refine Narrates.congr ((narrates_opcode d).bind fun o => (narrates_addressing d o).bind fun a =>
    (narrates_immediate (o.immediateWidth? a size)).bind_silent fun i => .pure (Body.mk o a i)) ?_
  intro r
  unfold account toldAfter
  cases d.readOpcode.run r with
  | error e => rfl
  | ok pair =>
    obtain ⟨o, mid⟩ := pair
    cases ha : (readAddressing d.mode o).run mid with
    | error e => simp [ha, fieldEvents]
    | ok pair => simp [ha, fieldEvents]

theorem narrates_instruction (d : Decoder) :
    Narrates d.instruction d.readInstruction fun r =>
      prefixesEvent (Prefix.run d.mode r.rest).length ::
        d.account (d.operandSize (Prefix.run d.mode r.rest))
          (r.advance (Prefix.run d.mode r.rest).length) := by
  refine Narrates.congr ((narrates_prefixes d).bind fun prefixes =>
    (narrates_body d (d.operandSize prefixes)).bind_silent fun body =>
      narrates_position fun length => body.instruction d.mode prefixes length) ?_
  intro r
  rfl

end Narrates

/-- The position behind the prefix run. -/
def afterPrefixes (mode : Mode) (bytes : List UInt8) : Reader :=
  (Reader.ofBytes bytes).advance (Prefix.run mode bytes).length

theorem taken_afterPrefixes (mode : Mode) (bytes : List UInt8) :
    (afterPrefixes mode bytes).taken = (Prefix.run mode bytes).map Prefix.byte := by
  simp [afterPrefixes, Reader.advance, Reader.ofBytes, Prefix.map_byte_run]

theorem rest_afterPrefixes (mode : Mode) (bytes : List UInt8) :
    (afterPrefixes mode bytes).rest = bytes.drop (Prefix.run mode bytes).length :=
  rfl

theorem position_afterPrefixes (mode : Mode) (bytes : List UInt8) :
    (afterPrefixes mode bytes).position = (Prefix.run mode bytes).length := by
  simp [Reader.position, taken_afterPrefixes]

/-- A log never decides a result: decoding is the prefix run and then the silent body. -/
theorem decode_eq_readBody (d : Decoder) (bytes : List UInt8) :
    d.decode bytes =
      ((d.readBody (d.operandSize (Prefix.run d.mode bytes))).run (afterPrefixes d.mode bytes)).map
        fun (body, after) => body.instruction d.mode (Prefix.run d.mode bytes) after.position := by
  obtain ⟨reader, hrun, _⟩ := narrates_instruction d ⟨.ofBytes bytes, d.opening bytes⟩
  have hprefixes : (readPrefixes d.mode).run (.ofBytes bytes) =
      .ok (Prefix.run d.mode bytes, afterPrefixes d.mode bytes) := rfl
  have hdecode : d.decode bytes = (d.readInstruction.run (.ofBytes bytes)).map Prod.fst :=
    congrArg Prod.fst hrun
  rw [hdecode, readInstruction, ReadM.run_bind_of_ok hprefixes, StateT.run_bind]
  cases (d.readBody _).run (afterPrefixes d.mode bytes) <;> rfl

section Result

variable {d : Decoder} {bytes : List UInt8}

theorem decode_eq_ok_iff_readBody {i : Instruction} :
    d.decode bytes = .ok i ↔
      ∃ body after, (d.readBody (d.operandSize (Prefix.run d.mode bytes))).run
          (afterPrefixes d.mode bytes) = .ok (body, after) ∧
        body.instruction d.mode (Prefix.run d.mode bytes) after.position = i := by
  rw [decode_eq_readBody]
  cases (d.readBody _).run (afterPrefixes d.mode bytes) with
  | error e => simp [Except.map]
  | ok pair =>
    obtain ⟨body, after⟩ := pair
    constructor
    · intro h
      exact ⟨body, after, rfl, Except.ok.inj h⟩
    · rintro ⟨_, _, hpair, rfl⟩
      cases hpair
      rfl

theorem decode_eq_error_iff_readBody {e : DecodeError} :
    d.decode bytes = .error e ↔
      (d.readBody (d.operandSize (Prefix.run d.mode bytes))).run (afterPrefixes d.mode bytes) =
        .error e := by
  rw [decode_eq_readBody]
  cases (d.readBody _).run (afterPrefixes d.mode bytes) <;> simp [Except.map]

end Result

/-- Between the opening and the exit a run says how many prefixes there are and then the rest. -/
theorem log_run (d : Decoder) (bytes : List UInt8) :
    (d.run bytes).log = d.opening bytes ++ [prefixesEvent (Prefix.run d.mode bytes).length] ++
      d.account (d.operandSize (Prefix.run d.mode bytes)) (afterPrefixes d.mode bytes) ++
      [.exit] := by
  obtain ⟨reader, hrun, _⟩ := narrates_instruction d ⟨.ofBytes bytes, d.opening bytes⟩
  have hlog : (d.run bytes).log =
      (d.instruction.run.run ⟨.ofBytes bytes, d.opening bytes⟩).2.log ++ [.exit] := rfl
  rw [hlog, hrun, List.append_assoc _ [_]]
  rfl

end X86Layout.Decoder
