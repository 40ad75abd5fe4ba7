import MintAudit.Proofs.Machine.Journey

namespace MintAudit

/-!
# Arithmetic and memory instructions are orderly

What is loaded was stored, or is a symbol named after the place that it was loaded from.
-/

open Std.Do

set_option mvcgen.warning false

open Word Exec Journey

/-! ## Arithmetic and logic instructions are orderly -/

namespace Alu

section Results

variable {admits : String → Prop} {left right word result : Word}

theorem matched_only (leftOnly : left.Only admits) (rightOnly : right.Only admits) :
    (matched left right).1.Only admits ∧ (matched left right).2.Only admits := by
  unfold matched
  grind

@[grind ⇐] theorem additive_only {op : Word.Operation} (leftOnly : left.Only admits) (rightOnly : right.Only admits)
    (found : additive op left right = .ok result) : result.Only admits := by
  obtain ⟨firstOnly, secondOnly⟩ := matched_only leftOnly rightOnly
  obtain ⟨sum, summed, found⟩ := bind_eq_ok.mp found
  split at found
  · obtain ⟨reduced, reduces, ⟨⟩⟩ := bind_eq_ok.mp found
    grind
  · grind

@[grind ⇐] theorem product_only (leftOnly : left.Only admits) (rightOnly : right.Only admits)
    (found : product left right = .ok result) : result.Only admits := by
  obtain ⟨firstOnly, secondOnly⟩ := matched_only leftOnly rightOnly
  obtain ⟨whole, multiplied, found⟩ := bind_eq_ok.mp found
  obtain ⟨low, masked, ⟨⟩⟩ := bind_eq_ok.mp found
  grind

theorem quotient_only {first second : Int} (found : quotient first second = .ok word) : word.Only admits := by
  unfold quotient at found
  split at found
  · grind
  · obtain ⟨exact, _, ⟨⟩⟩ := map_eq_ok.mp found
    grind

theorem signedQuotient_only {first second : Int} (found : signedQuotient first second = .ok word) :
    word.Only admits := by
  unfold signedQuotient at found
  dsimp only at found
  split at found
  · grind
  · split at found
    · grind
    · obtain ⟨exact, _, found⟩ := bind_eq_ok.mp found
      obtain ⟨size, _, ⟨⟩⟩ := bind_eq_ok.mp found
      grind

@[grind ←] theorem remainder_only (first second : Int) : (remainder first second).Only admits := by
  unfold remainder
  grind

@[grind ←] theorem signedRemainder_only (first second : Int) : (signedRemainder first second).Only admits := by
  unfold signedRemainder
  grind

@[grind ⇐] theorem power_only {base exponent : Int} (found : power base exponent = .ok word) : word.Only admits := by
  unfold power at found
  grind

@[grind ⇐] theorem extended_only (only : word.Only admits) (found : extended word = .ok result) :
    result.Only admits := by
  unfold extended at found
  grind

@[grind ⇐] theorem lowBits_only (only : word.Only admits) (found : lowBits word = .ok result) :
    result.Only admits := by
  unfold lowBits at found
  grind

@[grind ⇐] theorem byteFromRight_only {index : Word} (indexOnly : index.Only admits) (only : word.Only admits)
    (found : byteFromRight index word = .ok result) : result.Only admits := by
  obtain ⟨count, counted, found⟩ := bind_eq_ok.mp found
  obtain ⟨mask, shifted, found⟩ := bind_eq_ok.mp found
  obtain ⟨masked, kept, found⟩ := bind_eq_ok.mp found
  grind

@[grind ⇐] theorem shiftedRight_only (leftOnly : left.Only admits) (rightOnly : right.Only admits)
    (found : shiftedRight left right = .ok result) : result.Only admits := by
  unfold shiftedRight at found
  split at found
  · obtain ⟨firstOnly, secondOnly⟩ := matched_only leftOnly rightOnly
    obtain ⟨sum, summed, ⟨⟩⟩ := bind_eq_ok.mp found
    grind
  · obtain ⟨sum, summed, found⟩ := bind_eq_ok.mp found
    obtain ⟨mixed, mixes, found⟩ := bind_eq_ok.mp found
    split at found
    · split at found <;> cases found
      trivial
    · obtain ⟨reduced, reduces, ⟨⟩⟩ := bind_eq_ok.mp found
      grind

end Results

@[spec] theorem checkRevert_looks {before : Machine} (block : Int) :
    Looks before (checkRevert block) fun _ => True := by
  mvcgen [checkRevert] with grind

variable [Journey] {before : Machine} (decider : Decider)

abbrev Combines (compute : Word → Word → Exec Word) : Prop :=
  ∀ before first second, Obtains before (Knows before first ∧ Knows before second) (compute first second)
    fun word after => Knows after word

theorem signedQuotientTerm_combines : Combines (signedQuotientTerm decider) := by
  intro before first second
  mvcgen [signedQuotientTerm] with grind

theorem signedRemainderTerm_combines : Combines (signedRemainderTerm decider) := by
  intro before first second
  mvcgen [signedRemainderTerm] with grind

theorem binary_strides {compute : Word → Word → Exec Word} (computes : Combines compute) :
    Strides 2 1 1 before (binary compute) := by
  unfold Combines at computes
  mvcgen [binary, computes] with grind

theorem comparison_strides (concrete : Int → Int → Bool) {symbolic : Word → Word → Except Fault Flag}
    (gives : ∀ {admits first second flag}, first.Only admits → second.Only admits →
      symbolic first second = .ok flag → flag.Only admits) :
    Strides 2 1 1 before (comparison concrete symbolic) := by
  refine binary_strides fun before first second => ?_
  mvcgen with grind [bit]

theorem additiveIn_strides (block : Int) (op : Word.Operation) : Strides 2 1 1 before (additiveIn block op) := by
  refine binary_strides fun before first second => ?_
  mvcgen with grind

theorem division_strides {concrete : Int → Int → Except Fault Word} {symbolic : Word → Word → Exec Word}
    (gives : ∀ {admits first second word}, concrete first second = .ok word → word.Only admits)
    (computes : Combines symbolic) :
    Strides 2 1 1 before (division decider concrete symbolic) := by
  refine binary_strides fun before first second => ?_
  unfold Combines at computes
  mvcgen [guarded, computes] with grind

theorem modular_strides (concrete : Int → Int → Int) (op last : BinaryOp) :
    Strides 3 1 1 before (modular decider concrete op last) := by
  mvcgen [modular, moduloThird, guarded] with grind

theorem exponentiation_strides : Strides 2 1 1 before exponentiation := by
  refine binary_strides fun before first second => ?_
  mvcgen with grind

theorem signExtension_strides : Strides 2 1 1 before (signExtension decider) := by
  refine binary_strides fun before first second => ?_
  mvcgen [extendSignTerm, assumeInside] with grind

theorem isZero_strides : Strides 1 1 1 before isZero := by
  mvcgen [isZero] with grind [bit]

theorem complement_strides : Strides 1 1 1 before complement := by
  mvcgen [complement] with grind

theorem byte_strides : Strides 2 1 1 before (byte decider) := by
  mvcgen [byte, assumeInside] with grind

theorem shiftRight_strides : Strides 2 1 1 before shiftRight := by
  refine binary_strides fun before first second => ?_
  mvcgen with grind

@[spec] theorem noteSelector_runs (selector : Word) :
    Runs before (modifySession fun session =>
      { session with settings := { session.settings with shiftedReceiverSelector := selector } }) :=
  Steady.runs ⟨fun _ => rfl⟩ <| modifySession_steady (fun _ speaks => ⟨speaks.branches, speaks.parameters⟩) (fun _ _ => rfl)
    fun _ => ⟨rfl, rfl, rfl, rfl⟩

theorem shiftLeft_strides : Strides 2 1 1 before shiftLeft := by
  mvcgen [shiftLeft, scaleTop] with grind [matched_only]

end Alu

/-! ## Memory and storage instructions are orderly -/

namespace Memory

open Holdings (Blind)

attribute [local irreducible] Numeral.read?

section Results

variable {admits : String → Prop} {word result : Word}

@[grind ⇐] theorem wordsBehind_only {address : Word} (only : address.Only admits)
    (found : wordsBehind address = .ok result) : result.Only admits := by
  obtain ⟨sum, summed, found⟩ := bind_eq_ok.mp found
  obtain ⟨quotient, divided, found⟩ := bind_eq_ok.mp found
  grind

@[grind ⇐] theorem chooseTouched_only {test : Term} {yes no : Word} (testOnly : test.Only admits)
    (yesOnly : yes.Only admits) (noOnly : no.Only admits) (found : chooseTouched test yes no = .ok result) :
    result.Only admits := by
  unfold chooseTouched at found
  split at found
  · obtain ⟨other, coerced, ⟨⟩⟩ := bind_eq_ok.mp found
    exact ⟨testOnly, yesOnly, coerce_only noOnly coerced⟩
  · obtain ⟨other, coerced, ⟨⟩⟩ := bind_eq_ok.mp found
    exact ⟨testOnly, coerce_only yesOnly coerced, noOnly⟩
  · cases found

@[grind ⇐] theorem atLeast_only {touched bytes : Int} (found : atLeast touched bytes = .ok result) :
    result.Only admits := by
  obtain ⟨reached, _, ⟨⟩⟩ := bind_eq_ok.mp found
  trivial

end Results

variable [Journey] {before machine : Machine} {word : Word} (decider : Decider)

section Speaking

variable (within : Within machine)

include within

@[grind →] theorem touched_known : Knows machine machine.path.touched :=
  within.speaks.path.touched

@[grind →] theorem loaded_known {key : Key} (found : Table.get? key machine.path.memory = some word) :
    Knows machine word := by
  obtain ⟨entry, member, rfl⟩ := Table.exists_mem_of_get? found
  exact within.speaks.path.memory entry member

@[grind →] theorem hashed_known {key : String} (found : Table.get? key machine.path.hashes = some word) :
    Knows machine word := by
  obtain ⟨entry, member, rfl⟩ := Table.exists_mem_of_get? found
  exact within.speaks.path.hashes entry member

@[grind →] theorem stored_known {key : Key} (found : Table.get? key machine.path.storage = some word) :
    Knows machine word := by
  obtain ⟨entry, member, rfl⟩ := Table.exists_mem_of_get? found
  exact within.speaks.path.storage entry member

end Speaking

@[grind ←] theorem memoryWord_admitted (address : Word) (given : Nat) :
    frame.Admits given (Names.memoryWord address) :=
  frame.admits_append 'm' (by decide) (by decide) _ _

@[grind ←] theorem code_admitted (account position count : Word) (given : Nat) :
    frame.Admits given (Names.code account position count) := by
  unfold Names.code
  simp only [String.append_assoc]
  exact frame.admits_append 'c' (by decide) (by decide) _ _

@[grind ←] theorem storageWord_admitted (position : Word) (variableName : String) (given : Nat) :
    frame.Admits given (Names.storageWord position variableName) := by
  unfold Names.storageWord
  simp only [String.append_assoc]
  exact frame.admits_append 'I' (by decide) (by decide) _ _

@[spec] theorem touch_goes (touched reached : Word) :
    Obtains before (Knows before touched ∧ Knows before reached) (touch decider touched reached)
      fun word after => Knows after word := by
  mvcgen [touch] with grind

section Words

variable (blind : Blind frame.shown .words)

include blind

@[spec] theorem setTouched_puts (touched : Word) : Puts before touched (setTouched touched) :=
  Steady.puts ⟨fun _ => rfl⟩ fun only => modifyPath_steady (fun _ speaks => { speaks with touched := only })
    (fun path => blind path.holdings path.memory touched) fun _ => ⟨rfl, rfl, rfl⟩

@[spec] theorem putWord_puts (key : Key) (word : Word) : Puts before word (putWord key word) :=
  Steady.puts ⟨fun _ => rfl⟩ fun only => modifyPath_steady
    (fun _ speaks => { speaks with memory := Table.forall_put key only speaks.memory })
    (fun path => blind path.holdings (Table.put key word path.memory) path.touched) fun _ => ⟨rfl, rfl, rfl⟩

@[spec] theorem putOnly_puts (address word : Word) : Puts before word (putOnly address word) :=
  Steady.puts ⟨fun _ => rfl⟩ fun only => modifyPath_steady (fun _ speaks => { speaks with memory := by simpa using only })
    (fun path => blind path.holdings [(.label address.render, word)] path.touched) fun _ => ⟨rfl, rfl, rfl⟩

theorem load_strides : Strides 1 1 1 before (load decider) := by
  mvcgen [load] with grind [Option.bind_eq_some_iff]

@[spec] theorem keepWord_goes (address word touched : Word) :
    Obtains before (Knows before address ∧ Knows before word ∧ Knows before touched)
      (keepWord decider address word touched) fun _ _ => True := by
  mvcgen [keepWord] with grind

theorem storeByte_strides : Strides 2 0 1 before (storeByte decider) := by
  mvcgen [storeByte] with grind

@[spec] theorem copyUnknown_goes (name : String) (address count : Word) :
    Obtains before
      (frame.Admits before.session.names.other name ∧ Knows before address ∧ Knows before count)
      (copyUnknown decider name address count) fun _ _ => True := by
  mvcgen [copyUnknown] with grind

theorem copyCode_strides : Strides 3 0 1 before (copyCode decider) := by
  mvcgen [copyCode, codeDigits] with grind

theorem copyForeignCode_strides : Strides 4 0 1 before (copyForeignCode decider) := by
  mvcgen [copyForeignCode] with grind

end Words

omit [Journey] in
theorem putBytes_still (address : Int) (count : Nat) (word : Word) : Still (putBytes address count word) := by
  induction count generalizing word with
  | zero => exact .pure _
  | succ count ih =>
    refine (lift_still _).bind fun byte => .bind (.bind ⟨fun _ => rfl⟩ fun path => ?_) fun _ =>
      (lift_still _).bind fun rest => ih rest
    split
    · exact ⟨fun _ => rfl⟩
    · exact .throw _

section Bytes

variable (blind : Blind frame.shown .bytes) {given : Nat}

include blind

theorem changeBytes_steady (change : Array Word → Array Word) :
    Steady frame given (modifyPath fun path => { path with bytes := change path.bytes }) fun _ => True :=
  modifyPath_steady (fun _ speaks => { speaks with }) (fun path => blind path.holdings _) fun _ => ⟨rfl, rfl, rfl⟩

@[spec] theorem extend_runs (address : Int) : Runs before (extend address) := by
  have grows (machine : Machine) (more : Array Word) :
      Runs machine (modifyPath fun path => { path with bytes := path.bytes ++ more }) :=
    Steady.runs ⟨fun _ => rfl⟩ (changeBytes_steady blind (· ++ more))
  mvcgen [extend, grows] with grind

theorem putByte_steady (position : Int) (byte : Word) :
    Steady frame given (putByte position byte) fun _ => True := by
  unfold putByte
  refine path_steady.bind fun path _ => ?_
  split
  · exact changeBytes_steady blind (·.setIfInBounds _ byte)
  · exact Orderly.of_throw _

theorem putBytes_steady (address : Int) (count : Nat) (word : Word) :
    Steady frame given (putBytes address count word) fun _ => True := by
  induction count generalizing word with
  | zero => exact Steady.of_pure trivial
  | succ count ih =>
    refine Orderly.lift fun byte => ?_
    refine (putByte_steady blind _ byte).bind fun _ _ => ?_
    exact Orderly.lift fun rest => ih rest

@[spec] theorem putBytes_runs (address : Int) (count : Nat) (word : Word) :
    Runs before (putBytes address count word) :=
  Steady.runs (putBytes_still address count word) (putBytes_steady blind address count word)

end Bytes

theorem store_strides (words : Blind frame.shown .words) (bytes : Blind frame.shown .bytes) :
    Strides 2 0 1 before (store decider) := by
  mvcgen [store] with grind

theorem codeSize_strides : Strides 0 1 1 before codeSize := by
  mvcgen [codeSize, codeDigits] with grind

theorem size_strides : Strides 0 1 1 before size := by
  mvcgen [size] with grind

@[spec] theorem putHash_puts (blind : Blind frame.shown .hashes) (key : String) (word : Word) :
    Puts before word (modifyPath fun path => { path with hashes := Table.put key word path.hashes }) :=
  Steady.puts ⟨fun _ => rfl⟩ fun only => modifyPath_steady
    (fun _ speaks => { speaks with hashes := Table.forall_put key only speaks.hashes })
    (fun path => blind path.holdings _) fun _ => ⟨rfl, rfl, rfl⟩

@[spec] theorem putStorage_puts (blind : Blind frame.shown .storage) (key : Key) (word : Word) :
    Puts before word (modifyPath fun path => { path with storage := Table.put key word path.storage }) :=
  Steady.puts ⟨fun _ => rfl⟩ fun only => modifyPath_steady
    (fun _ speaks => { speaks with storage := Table.forall_put key only speaks.storage })
    (fun path => blind path.holdings _) fun _ => ⟨rfl, rfl, rfl⟩

@[spec] theorem changeGates_runs (change : Path → Gates) :
    Runs before (modifyPath fun path => { path with gates := change path }) :=
  Steady.runs ⟨fun _ => rfl⟩ <| modifyPath_plain fun _ => ⟨_, _, _, _, rfl⟩

theorem hash_strides (blind : Blind frame.shown .hashes) : Strides 2 1 1 before hash := by
  mvcgen [hash, hashSymbol] with grind

@[spec] theorem noteLoaded_runs :
    Runs before (modifyPath fun path =>
      if path.gates.burn.hash = .absent then
        path
      else
        { path with
          gates := { path.gates with burn := { path.gates.burn with loaded := path.stack.headD .absent } } }) := by
  refine Steady.runs ⟨fun machine => ?_⟩ <| modifyPath_plain fun path => ?_
  · simp only [Effect.left, modifyPath_apply, depth]
    split <;> rfl
  · dsimp only
    split
    · exact ⟨_, _, _, _, rfl⟩
    · exact ⟨_, _, _, _, rfl⟩

theorem loadStorage_strides (blind : Blind frame.shown .storage) : Strides 1 1 1 before loadStorage := by
  mvcgen [loadStorage, loadedVariable] with
    grind [Option.bind_eq_some_iff, Option.or_eq_some_iff, Option.orElse_eq_orElse]

@[spec] theorem noteStored_runs (blind : Blind frame.shown .stored) :
    Runs before (modifySession fun session => { session with watch := { session.watch with stored := true } }) :=
  Steady.runs ⟨fun _ => rfl⟩ <| modifySession_plain fun session => ⟨_, _, rfl, fun holdings => blind holdings session.watch⟩

@[spec] theorem noteAffected_runs (change : Session → Table Int Bool) :
    Runs before (modifySession fun session => { session with callsAffect := change session }) :=
  Steady.runs ⟨fun _ => rfl⟩ <| modifySession_plain fun _ => ⟨_, _, rfl, fun _ => rfl⟩

theorem storeStorage_strides (blind : Blind frame.shown .storage) (stored : Blind frame.shown .stored) :
    Strides 2 0 1 before storeStorage := by
  mvcgen [storeStorage] with grind

end Memory

end MintAudit
