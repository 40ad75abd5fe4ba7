import MintAudit.Proofs.Machine.OrderlyMemory

namespace MintAudit

/-!
# Instructions are orderly

Every instruction but those that move value is orderly, and so is a step that executes one of them.
-/

open Std.Do

set_option mvcgen.warning false

open Exec Journey
open Holdings (Blind)

namespace Environment

theorem putBalance_steady {γ : Type} {frame : Frame γ} {given : Nat} (account : String) {word : Word}
    (only : word.Only (frame.Admits given)) :
    Steady frame given
      (modifyPath fun path => { path with balances := Table.put account word path.balances }) fun _ => True :=
  modifyPath_steady
    (fun _ speaks => { speaks with balances := Table.forall_put account only speaks.balances })
    (fun _ => rfl) fun _ => ⟨rfl, rfl, rfl⟩

variable [Journey] {before machine : Machine}

theorem fact_strides {name : String} (admitted : ∀ given, frame.Admits given name) :
    Strides 0 1 1 before (fact name) := by
  have known (machine : Machine) : Knows machine (Word.symbol name) := admitted _
  mvcgen [fact] with grind

@[spec] theorem namedFact_goes (name : String) :
    Goes 0 0 0 1 0 before (frame.Admits before.session.names.other name) (namedFact name) fun _ _ => True := by
  mvcgen [namedFact] with grind

@[spec] theorem putBalance_puts (account : String) (word : Word) :
    Puts before word (modifyPath fun path => { path with balances := Table.put account word path.balances }) :=
  Steady.puts ⟨fun _ => rfl⟩ (putBalance_steady account)

theorem balance_strides : Strides 1 1 1 before balance := by
  mvcgen [balance] with grind

theorem noteVariable_steady {given : Nat} (name : String) :
    Steady frame given (noteVariable name) fun _ => True := by
  refine modifySession_steady (fun session speaks => ⟨speaks.branches, ?_⟩) (fun _ _ => rfl)
    (fun session => ⟨?_, rfl, rfl, rfl⟩)
  · intro map present
    obtain ⟨source, sourcePresent, rfl⟩ := Option.mem_map.mp present
    exact speaks.parameters source sourcePresent
  · cases source : session.source <;> simp [Session.standing, source]

@[spec] theorem forM_noteVariable_runs (names : List String) : Runs before (names.forM noteVariable) := by
  refine Steady.runs ?still ?steady
  case still =>
    induction names with
    | nil => exact .pure ()
    | cons name rest ih => exact .bind ⟨fun _ => rfl⟩ fun _ => ih
  intro given
  induction names with
  | nil => exact Steady.of_pure trivial
  | cons name rest ih => exact (noteVariable_steady name).bind fun _ _ => ih

/-- The names of the parameters may be names of symbols. -/
def Admitted (parameters : List Parameter) : Prop :=
  ∀ parameter ∈ parameters, ∀ given, frame.Admits given parameter.name

@[grind →] theorem parameters_admitted (within : Within machine) {source : SourceMap} {function : String}
    {parameters : List Parameter} (present : machine.session.source = some source)
    (found : Table.get? function source.parameters = some parameters) : Admitted parameters := by
  obtain ⟨entry, member, rfl⟩ := Table.exists_mem_of_get? found
  intro parameter listed given
  exact frame.grows (Nat.zero_le given) (within.speaks.session.parameters source present entry member parameter listed)

@[spec] theorem expectedParameters_looks (function : String) (position : Word) :
    Looks before (expectedParameters function position) fun expected =>
      Within before → ∀ index parameters, expected = some (index, parameters) → Admitted parameters := by
  mvcgen [expectedParameters] with grind

@[spec] theorem parameterName_obtains (index : Int) (parameters : List Parameter) :
    Obtains before (Admitted parameters) (parameterName index parameters) fun name after =>
      frame.Admits after.session.names.other name := by
  mvcgen [parameterName] with grind [Admitted, List.mem_of_getLast?]

@[grind ←] theorem dataWord_fresh : Fresh Names.dataWord :=
  ⟨Names.dataWord_proceeds, fun _ => frame.admits_append 'I' (by decide) (by decide) _ _⟩

def takeData (function : String) : Exec Word := do
  need 1
  advance 1
  let position ← pop
  let name ← match ← expectedParameters function position with
    | some (index, parameters) => parameterName index parameters
    | none => freshName Names.dataWord
  let word ← symbolNamed name
  push word
  return word

omit [Journey] in
theorem loadData_eq (function : String) :
    loadData function = takeData function >>= fun word =>
        modifySession fun session => { session with watch := countLoad word session.watch } := by
  unfold loadData takeData
  simp only [bind_assoc]
  congr! with _ _ expected
  cases expected with
  | none => simp only [bind_assoc, pure_bind]
  | some found => simp only [bind_assoc, pure_bind]

@[spec] theorem takeData_strides (function : String) : Strides 1 1 1 before (takeData function) := by
  mvcgen [takeData] with grind

@[spec] theorem countLoad_runs (blind : Blind frame.shown .loads) (word : Word) :
    Runs before (modifySession fun session => { session with watch := countLoad word session.watch }) :=
  Steady.runs ⟨fun _ => rfl⟩ <| modifySession_plain fun session => ⟨_, _, rfl, fun holdings => blind holdings session.watch word⟩

theorem loadData_strides (blind : Blind frame.shown .loads) (function : String) :
    Strides 1 1 1 before (loadData function) := by
  rw [loadData_eq]
  mvcgen with grind

@[grind ←] theorem codeSize_admitted (address : Word) (given : Nat) : frame.Admits given (Names.codeSize address) :=
  frame.admits_append 'c' (by decide) (by decide) _ _

theorem dataSize_strides : Strides 0 1 1 before (advance 1 >>= fun _ => namedFact Names.dataSize) := by
  have admitted (given : Nat) : frame.Admits given Names.dataSize := frame.admits_of_head (by decide) given
  mvcgen with grind

theorem codeSize_strides : Strides 1 1 1 before codeSize := by
  mvcgen [codeSize] with grind

theorem blockHash_strides : Strides 1 1 1 before blockHash := by
  have admitted (given : Nat) : frame.Admits given "IH_blockhash" := frame.admits_of_head (by decide) given
  mvcgen [blockHash] with grind

theorem gasLeft_strides : Strides 0 1 1 before gasLeft := by
  mvcgen [gasLeft] with grind

theorem consume_strides (count : Nat) : Strides count 0 1 before (consume count) := by
  mvcgen [consume] with grind

theorem unknownResult_strides (count : Nat) : Strides count 1 1 before (unknownResult count) := by
  mvcgen [unknownResult] with grind

omit [Journey] in
theorem takeData_tidy {γ : Type} {frame : Frame γ} {given : Nat} (function : String) :
    Tidy frame 1 given (takeData function) :=
  tidy_of_strides (fun start outer => @takeData_strides ⟨frame, start, outer⟩ start function) given

end Environment

namespace Control

variable [Journey] {before machine : Machine} (block : Int)

theorem updateBlock_steady {given : Nat} {change : Block → Block}
    (unseen : ∀ current, (change current).layout = current.layout)
    (branches : ∀ current : Block, (∀ branch ∈ current.branch, branch.Only (frame.Admits given)) →
      ∀ branch ∈ (change current).branch, branch.Only (frame.Admits given)) :
    Steady frame given (updateBlock block change) fun _ => True := by
  unfold updateBlock
  refine session_steady.bind fun session _ => ?_
  refine (discard_lift_steady _).bind fun _ _ => ?_
  refine modifySession_steady (fun session speaks => ⟨?_, speaks.parameters⟩) (fun _ _ => rfl)
    (fun session => ⟨?_, rfl, rfl, rfl⟩)
  · exact Table.forall_adjust block branches speaks.branches
  · have layout : (session.graph.updateBlock block change).layout = session.graph.layout :=
      Table.map_adjust block unseen session.graph.blocks
    simp only [Session.standing, layout]
    rfl

omit [Journey] in
theorem updateBlock_still (change : Block → Block) : Still (updateBlock block change) :=
  .bind ⟨fun _ => rfl⟩ fun _ => .bind (.bind (lift_still _) fun _ => .pure ()) fun _ => ⟨fun _ => rfl⟩

@[spec] theorem setTarget_runs (address : Int) :
    Runs before (updateBlock block fun current => { current with jumpTarget := address }) :=
  Steady.runs (updateBlock_still _ _) (updateBlock_steady block (fun _ => rfl) fun _ only => only)

@[spec] theorem setBranch_puts (branch : Word) :
    Puts before branch (updateBlock block fun current => { current with branch := some branch }) :=
  Steady.puts (updateBlock_still _ _) fun only => updateBlock_steady block (fun _ => rfl) fun _ _ => by simpa using only

@[spec] theorem addJump_runs (address : Int) : Runs before (addJump block address) := by
  have still : Still (addJump block address) :=
    .bind ⟨fun _ => rfl⟩ fun session => (lift_still _).bind fun _ => ⟨fun _ => rfl⟩
  refine Steady.runs still (.of_abides ?_)
  rintro before rfl speaks
  have same : ∀ edges, before.Abides frame { before with session :=
      { before.session with graph := { before.session.graph with edges := edges } } } :=
    fun edges => ⟨rfl, rfl, rfl, le_rfl, rfl, speaks.path, speaks.session.branches, speaks.session.parameters⟩
  simp only [addJump, bind_apply, session_apply, Graph.addJump]
  cases Table.get? block before.session.graph.edges with
  | none => exact ⟨.refl speaks, rfl⟩
  | some targets =>
    by_cases present : targets.contains address = true
    · simp only [present, ↓reduceIte]
      exact ⟨same before.session.graph.edges, rfl, rfl, rfl, rfl, trivial⟩
    · simp only [present, Bool.false_eq_true, ↓reduceIte]
      exact ⟨same _, rfl, rfl, rfl, rfl, trivial⟩

theorem jump_strides : Strides 1 0 0 before (jump block) := by
  mvcgen [jump] with grind

omit [Journey] in
@[grind ⇐] theorem branchOf_only {admits : String → Prop} {flag branch : Word} (only : flag.Only admits)
    (found : branchOf flag = .ok branch) : branch.Only admits := by
  unfold branchOf at found
  split at found
  · cases found
    exact ⟨trivial, trivial⟩
  · cases found
    trivial
  · obtain ⟨differs, compared, ⟨⟩⟩ := Word.bind_eq_ok.mp found
    exact Flag.toWord_only (Word.equate_only only (Word.integer_only _) compared)

theorem jumpIf_strides : Strides 2 0 0 before (jumpIf block) := by
  mvcgen [jumpIf] with grind

theorem programCounter_strides : Strides 0 1 1 before programCounter := by
  mvcgen [programCounter] with grind

theorem pushConstant_strides (width : Int) (value : Except Fault Int) :
    Strides 0 1 (1 + width) before (pushConstant (some width) value) := by
  mvcgen [pushConstant] with grind

@[grind →] theorem stacked_known (within : Within machine) {place : Int} {word : Word}
    (found : Sequence.at? machine.path.stack place = some word) : Knows machine word := by
  obtain ⟨index, _, present⟩ := Option.bind_eq_some_iff.mp found
  exact within.speaks.path.stack word (List.mem_of_getElem? present)

theorem duplicate_strides (depth : Option Int) :
    Strides (depth.getD 0).toNat ((depth.getD 0).toNat + 1) 1 before (duplicate depth) := by
  mvcgen [duplicate] with grind

omit [Journey] in
theorem mem_of_mem_exchanged {index : Nat} {stack : List Word} {word : Word} (member : word ∈ exchanged index stack) :
    word ∈ stack := by
  unfold exchanged at member
  split at member
  · next top rest other found =>
    rcases List.mem_or_eq_of_mem_set member with inside | rfl
    · rcases List.mem_or_eq_of_mem_set inside with inside | rfl
      · exact inside
      · simp
    · exact List.mem_of_getElem? found
  · exact member

omit [Journey] in
@[grind =] theorem length_exchanged (index : Nat) (stack : List Word) :
    (exchanged index stack).length = stack.length := by
  unfold exchanged
  split <;> simp

theorem swap_lengths (depth : Option Int) :
    ⦃fun machine => ⌜machine = before⌝⦄ swap depth
    ⦃post⟨fun _ after => ⌜(depth.getD 0 + 1).toNat ≤ Exec.depth before ∧ Exec.depth after = Exec.depth before⌝,
      fun _ _ => ⌜True⌝⟩⦄ := by
  have changes (change : Path → Path) :
      ⦃fun machine => ⌜(change machine.path).stack.length = Exec.depth before⌝⦄ modifyPath change
      ⦃post⟨fun _ after => ⌜Exec.depth after = Exec.depth before⌝, fun _ _ => ⌜True⌝⟩⦄ := by
    mvcgen [modifyPath]
  mvcgen [swap, changes]
  · grind
  · -- The generator does not split where the new stack is asked for its second word.
    intro machine kept
    split
    · mvcgen [changes] with grind
    · mvcgen

theorem swap_strides (depth : Option Int) :
    Strides (depth.getD 0 + 1).toNat (depth.getD 0 + 1).toNat 1 before (swap depth) := by
  have tidy : Tidy frame 1 before.session.names.other (swap depth) := by
    unfold swap
    refine Orderly.advance ?_
    split
    · refine path_steady.bind fun path speaks => ?_
      dsimp only
      split
      · exact Orderly.of_throw _
      · split
        · next index _ =>
          have setStack : Steady frame before.session.names.other
              (modifyPath fun path' => { path' with stack := exchanged index path.stack }) fun _ => True :=
            modifyPath_steady
              (fun _ others =>
                { others with stack := fun word member => speaks.stack word (mem_of_mem_exchanged member) })
              (fun _ => rfl) fun _ => ⟨rfl, rfl, rfl⟩
          refine setStack.bind fun _ _ => ?_
          split
          · refine path_steady.bind fun path _ => ?_
            refine Orderly.lift fun same => ?_
            split
            · exact (modifyPath_plain fun _ => ⟨_, _, _, _, rfl⟩).tidy
            · exact Orderly.of_pure trivial
          · exact Orderly.of_throw _
        · exact Orderly.of_throw _
    · exact Orderly.of_throw _
  have goes : Goes 0 0 _ _ 1 before True (swap depth) fun _ _ => True :=
    Orderly.goes (fun run => (of_triple (swap_lengths depth) rfl run).imp_right fun same => by rw [same]) fun _ => tidy
  mvcgen [goes] with grind

theorem log_strides (topics : Nat) : Strides (2 + topics) 0 1 before (log topics) := by
  mvcgen [log] with grind

theorem finish_strides (undo : Bool) : Strides 2 0 (if undo then 1 else 0) before (finish undo) := by
  mvcgen [finish] with grind

theorem unknown_strides {taken put : Nat} (distance : Int) (name : String) :
    Strides taken put distance before (unknown name) := by
  mvcgen [unknown] with grind

end Control

def Opcode.effect : Opcode → Nat × Nat
  | .stop | .jumpdest => (0, 0)
  | .pop | .jump | .selfdestruct => (1, 0)
  | .mstore | .mstore8 | .sstore | .jumpi | .returnData | .revert => (2, 0)
  | .calldatacopy | .codecopy | .returndatacopy => (3, 0)
  | .extcodecopy => (4, 0)
  | .address | .caller | .origin | .callvalue | .calldatasize | .codesize | .returndatasize | .gasprice
  | .coinbase | .timestamp | .number | .difficulty | .gaslimit | .pc | .msize | .gas | .selfbalance | .chainid
  | .basefee => (0, 1)
  | .iszero | .not | .balance | .calldataload | .extcodesize | .blockhash | .mload | .sload => (1, 1)
  | .addmod | .mulmod | .create => (3, 1)
  | .delegatecall => (6, 1)
  | .call | .callcode => (7, 1)
  | .add | .mul | .sub | .div | .sdiv | .mod | .smod | .exp | .signextend | .lt | .gt | .slt | .sgt | .eq
  | .and | .or | .xor | .byte | .hash | .shl | .shr | .sar => (2, 1)

def Instruction.effect : Instruction → Nat × Nat
  | .plain opcode => opcode.effect
  | .failing | .unknown _ => (0, 0)
  | .push _ _ => (0, 1)
  | .duplicate depth => ((depth.getD 0).toNat, (depth.getD 0).toNat + 1)
  | .swap depth => ((depth.getD 0 + 1).toNat, (depth.getD 0 + 1).toNat)
  | .log topics => (2 + topics, 0)

def Instruction.MovesValue (instruction : Instruction) : Prop :=
  instruction = .plain .call ∨ instruction = .plain .callcode ∨ instruction = .plain .selfdestruct

namespace Machine

section Executing

open Alu Memory Environment Control

variable [Journey] {before : Machine} (decider : Decider)

theorem executePlain_strides (block : Int) (function : String) {opcode : Opcode}
    (keeps : ¬ (Instruction.plain opcode).MovesValue) (blind : ∀ part ∈ opcode.changed, Blind frame.shown part) :
    Strides opcode.effect.1 opcode.effect.2 (Instruction.plain opcode).stride before
      (executePlain decider block function opcode) := by
  have named {name : String} (head : name.toList.head? ∉ [some 's', some 'g', some 'b']) :
      Strides 0 1 1 before (fact name) :=
    fact_strides (frame.admits_of_head head)
  have lifted {compute : Word → Word → Except Fault Word}
      (gives : ∀ {admits first second word}, first.Only admits → second.Only admits →
        compute first second = .ok word → word.Only admits) :
      Combines fun first second => lift (compute first second) := by
    intro before first second
    mvcgen with grind
  have moves : Strides 0 0 1 before (advance 1) := by mvcgen with grind
  cases opcode <;> dsimp only [executePlain, Opcode.effect, Instruction.stride, Instruction.size]
  case stop | jumpdest => exact moves
  case add | sub => exact additiveIn_strides block _
  case mul => exact binary_strides (lifted product_only)
  case div => exact division_strides decider quotient_only (lifted Word.combine_only)
  case sdiv => exact division_strides decider signedQuotient_only (signedQuotientTerm_combines decider)
  case mod => exact division_strides decider (by grind) (lifted Word.combine_only)
  case smod => exact division_strides decider (by grind) (signedRemainderTerm_combines decider)
  case addmod | mulmod => exact modular_strides decider _ _ _
  case exp => exact exponentiation_strides
  case signextend => exact signExtension_strides decider
  case lt | gt => exact comparison_strides _ Word.relateUnsigned_only
  case slt | sgt => exact comparison_strides _ Word.relate_only
  case eq => exact comparison_strides _ Word.equate_only
  case and | or | xor => exact binary_strides (lifted Word.operate_only)
  case iszero => exact isZero_strides
  case not => exact complement_strides
  case byte => exact byte_strides decider
  case hash => exact hash_strides (blind .hashes (by decide))
  case address | caller | origin | callvalue | gasprice | coinbase | timestamp | number | difficulty | gaslimit |
      selfbalance | chainid | basefee =>
    exact named (by decide)
  case balance => exact balance_strides
  case calldataload => exact loadData_strides (blind .loads (by decide)) function
  case calldatasize => exact dataSize_strides
  case calldatacopy | returndatacopy => exact consume_strides 3
  case codesize => exact Memory.codeSize_strides
  case codecopy => exact copyCode_strides decider (blind .words (by decide))
  case returndatasize => exact unknownResult_strides 0
  case extcodesize => exact Environment.codeSize_strides
  case extcodecopy => exact copyForeignCode_strides decider (blind .words (by decide))
  case blockhash => exact blockHash_strides
  case pop => exact consume_strides 1
  case mload => exact load_strides decider (blind .words (by decide))
  case mstore => exact store_strides decider (blind .words (by decide)) (blind .bytes (by decide))
  case mstore8 => exact storeByte_strides decider (blind .words (by decide))
  case sload => exact loadStorage_strides (blind .storage (by decide))
  case sstore => exact storeStorage_strides (blind .storage (by decide)) (blind .stored (by decide))
  case jump => exact jump_strides block
  case jumpi => exact jumpIf_strides block
  case pc => exact programCounter_strides
  case msize => exact size_strides
  case gas => exact gasLeft_strides
  case create => exact unknownResult_strides 3
  case call => exact (keeps (.inl rfl)).elim
  case callcode => exact (keeps (.inr (.inl rfl))).elim
  case delegatecall => exact unknownResult_strides 6
  case returnData => exact finish_strides false
  case revert => exact finish_strides true
  case selfdestruct => exact (keeps (.inr (.inr rfl))).elim
  case shl => exact shiftLeft_strides
  case shr | sar => exact shiftRight_strides

theorem execute_strides (block : Int) (function : String) {instruction : Instruction} (keeps : ¬ instruction.MovesValue)
    (blind : ∀ part ∈ instruction.changed, Blind frame.shown part) :
    Strides instruction.effect.1 instruction.effect.2 instruction.stride before
      (execute decider block function instruction) := by
  have nothing : Strides 0 0 0 before (pure ()) := by mvcgen with grind
  have refused (distance : Int) (fault : Fault) : Strides 0 1 distance before (throw fault : Exec Unit) := by
    mvcgen with grind
  cases instruction with
  | plain opcode => exact executePlain_strides decider block function keeps blind
  | failing => exact nothing
  | push width value =>
    cases width with
    | none => exact refused _ _
    | some width => exact pushConstant_strides width value
  | duplicate depth => exact duplicate_strides depth
  | swap depth => exact swap_strides depth
  | log topics => exact log_strides topics
  | unknown name => exact unknown_strides _ name

end Executing

variable {γ : Type} {frame : Frame γ} {given : Nat} (decider : Decider)

theorem execute_tidy (block : Int) (function : String) {instruction : Instruction} (keeps : ¬ instruction.MovesValue)
    (blind : ∀ part ∈ instruction.changed, Blind frame.shown part) :
    Tidy frame instruction.stride given (execute decider block function instruction) :=
  tidy_of_strides (fun start outer =>
    @execute_strides ⟨frame, start, outer⟩ start decider block function _ keeps blind) given

end Machine

theorem TransferEvent.inspect_scopes (decider : Decider) (scene : Scene) (findings : Findings) :
    (inspect decider scene findings).scopes = scene.scopes := by
  unfold inspect
  split
  · rfl
  · rfl
  · split
    · rfl
    · dsimp only
      split
      · rfl
      · unfold checkSender
        split
        · split <;> rfl
        · rfl

namespace Machine

variable {γ : Type} {frame : Frame γ} {given : Nat} (decider : Decider)

theorem inspect_steady (blind : Blind frame.shown .findings) (instruction : Instruction) :
    Steady frame given (inspect decider instruction) fun _ => True := by
  refine .of_abides ?_
  rintro before rfl speaks
  unfold inspect
  rw [bind_ok (get_apply before)]
  dsimp only
  rw [bind_ok (modifySession_apply _ _), TransferEvent.inspect_scopes]
  generalize TransferEvent.inspect decider _ before.session.watch.findings = outcome
  have abides : before.Abides frame { before with session :=
      { before.session with watch := { before.session.watch with findings := outcome.findings } } } :=
    ⟨rfl, rfl, rfl, le_rfl, blind _ _ _, speaks.path, speaks.session.branches, speaks.session.parameters⟩
  cases outcome.fault with
  | none => exact ⟨abides, rfl, rfl, rfl, rfl, trivial⟩
  | some fault => exact ⟨abides, rfl⟩

theorem showProgress_steady : Steady frame given showProgress fun _ => True := by
  unfold showProgress
  refine session_steady.bind fun session _ => ?_
  dsimp only
  split
  · exact Orderly.of_throw _
  · refine Orderly.lift fun percent => ?_
    split
    · exact Orderly.of_throw _
    · exact Steady.of_pure trivial

theorem perform_tidy (block : Int) (function : String) {instruction : Instruction} (keeps : ¬ instruction.MovesValue)
    (blind : ∀ part ∈ .findings :: instruction.changed, Blind frame.shown part) :
    Tidy frame instruction.stride given (perform decider block function instruction) := by
  obtain ⟨found, changed⟩ := List.forall_mem_cons.mp blind
  have executes : Tidy frame instruction.stride given (execute decider block function instruction) :=
    execute_tidy decider block function keeps changed
  cases instruction with
  | failing => exact Orderly.of_pure trivial
  | _ => exact (inspect_steady decider found _).bind fun _ _ => showProgress_steady.bind fun _ _ => executes

end Machine

end MintAudit
