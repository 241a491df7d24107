import Nanolibc.ClientModel

set_option autoImplicit false

namespace Nanolibc.ClientModel
open Lib.Program Lib.JumpBuffer CString StdioModel EfiOutput StateTransition Relation
open Lib.ArrayHeap (Fault)
open EfiConsoleModel (Console convertAll)

variable {M : Type}

namespace Client

/-- No `EFI_NANOLIBC_CALL`, so that the program can be built for any runtime. -/
def Portable : Client M → Prop
  | .ret _ | .exit _ => True
  | .output _ next => ∀ r, (next r).Portable
  | .work _ next => ∀ r, (next r).Portable
  | .call g next => g.Portable ∧ ∀ v, (next v).Portable
  | .efiNanolibcCall .. => False

/-- `EFI_NANOLIBC_CALL` of functions that do not use it, and no `exit` outside. -/
def Flat : Client M → Prop
  | .ret _ => True
  | .exit _ => False
  | .output _ next => ∀ r, (next r).Flat
  | .work _ next => ∀ r, (next r).Flat
  | .call g next => g.Flat ∧ ∀ v, (next v).Flat
  | .efiNanolibcCall _ fct next => fct.Portable ∧ ∀ status, (next status).Flat

def Valid : Client M → Prop
  | .ret _ | .exit _ => True
  | .output op next => op.Valid ∧ ∀ r, (next r).Valid
  | .work _ next => ∀ r, (next r).Valid
  | .call g next => g.Valid ∧ ∀ v, (next v).Valid
  | .efiNanolibcCall _ fct next => fct.Valid ∧ ∀ status, (next status).Valid

theorem Portable.plain {c : Client M} (portable : c.Portable) : c.efi.Plain := by
  induction c with
  | ret v => trivial
  | exit status => exact fun _ => trivial
  | output op next ih => exact fun r => ih r (portable r)
  | work f next ih => exact fun r => ih r (portable r)
  | call g next ihg ih => exact ⟨ihg portable.1, fun v => ih _ (portable.2 _)⟩
  | efiNanolibcCall retvalFailure fct next ihf ih => exact portable.elim

theorem Flat.efi {c : Client M} (flat : c.Flat) : c.efi.Flat := by
  induction c with
  | ret v => trivial
  | exit status => exact flat.elim
  | output op next ih => exact fun r => ih r (flat r)
  | work f next ih => exact fun r => ih r (flat r)
  | call g next ihg ih => exact ⟨ihg flat.1, fun v => ih _ (flat.2 _)⟩
  | efiNanolibcCall retvalFailure fct next ihf ih =>
    exact ⟨flat.1.plain, fun v => ih _ (flat.2 _), ih _ (flat.2 _)⟩

end Client

section Runs

variable {sysdeps : Sysdeps} {c : Client M}

theorem run_whole (accepts : sysdeps.Accepts) : ∀ c : Client M, c.Valid → ∀ memory,
    ∃ exit memory' more, ∀ log, c.run sysdeps ⟨memory, log⟩ =
      .ok (exit, ⟨memory', log ++ more⟩) := by
  intro c
  induction c with
  | ret v =>
    intro _ memory
    refine ⟨.returned v, memory, [], fun log => ?_⟩
    rw [List.append_nil]
    rfl
  | exit status =>
    intro _ memory
    refine ⟨.exited status, memory, [], fun log => ?_⟩
    rw [List.append_nil]
    rfl
  | output op next ih =>
    intro ⟨valid, valid_next⟩ memory
    obtain ⟨r, first, run, _⟩ := output_whole accepts valid
    obtain ⟨exit, memory', rest, runs⟩ := ih r (valid_next r) memory
    refine ⟨exit, memory', first ++ rest, fun log => ?_⟩
    have wrote : zoom Process.log (fun p log => { p with log }) (StdioModel.output sysdeps op)
        (⟨memory, log⟩ : Process M) = .ok (r, ⟨memory, log ++ first⟩) := by
      rw [zoom, run]
    rw [Client.run, run_bind wrote, runs, List.append_assoc]
  | work f next ih =>
    intro valid memory
    obtain ⟨exit, memory', more, runs⟩ := ih (f memory).1 (valid _) (f memory).2
    exact ⟨exit, memory', more, fun log => runs log⟩
  | call g next ihg ih =>
    intro ⟨valid, valid_next⟩ memory
    obtain ⟨exit, memory', first, run⟩ := ihg valid memory
    cases exit with
    | exited status =>
      refine ⟨.exited status, memory', first, fun log => ?_⟩
      rw [Client.run, run_bind (run log)]
      rfl
    | returned v =>
      obtain ⟨exit, memory'', rest, runs⟩ := ih v (valid_next v) memory'
      refine ⟨exit, memory'', first ++ rest, fun log => ?_⟩
      rw [Client.run, run_bind (run log)]
      dsimp only
      rw [runs, List.append_assoc]
  | efiNanolibcCall retvalFailure fct next ihf ih =>
    intro ⟨valid, valid_next⟩ memory
    obtain ⟨exit, memory', first, run⟩ := ihf valid memory
    obtain ⟨exit', memory'', rest, runs⟩ :=
      ih _ (valid_next (exit.blockRetval retvalFailure)) memory'
    refine ⟨exit', memory'', first ++ rest, fun log => ?_⟩
    rw [Client.run, run_bind (run log), runs, List.append_assoc]

theorem assertWith_run {message : Output} {next : Client M} {val : Int32} {std : Std}
    (accepts : sysdeps.Accepts) (valid : message.Valid) (target : message.target = some std)
    (small : message.text.length < 2 ^ 63) (failed : val = 0) (memory : M) (log : Log) :
    ∃ more, (Client.assertWith message val next).run sysdeps ⟨memory, log⟩ =
        .ok (.exited (-1), ⟨memory, log ++ more⟩) ∧ arrived std more = message.text := by
  obtain ⟨r, more, run, logged, _⟩ := output_whole accepts valid
  have wrote : zoom Process.log (fun p log => { p with log }) (StdioModel.output sysdeps message)
      (⟨memory, log⟩ : Process M) = .ok (r, ⟨memory, log ++ more⟩) := by
    rw [zoom, run]
  refine ⟨more, ?_, ?_⟩
  · rw [Client.assertWith, if_neg (not_not.mpr failed), Client.run, run_bind wrote]
    rfl
  · obtain ⟨calls, whole, rfl⟩ := logged.2 std target
    rw [arrived, callsTo_tagged, if_pos rfl]
    exact whole.accepted small

/-- In the EFI runtime the code of a program is meant to do what the program does, and after an
`exit` the context has its status. -/
theorem eval_efi : ∀ (c : Client M) (p : Process M) (r : Int32),
    wp (c.run efiSysdeps) (fun exit q => ∃ r', c.efi.eval ⟨p, r⟩ = .ok (exit.value, ⟨q, r'⟩) ∧
      ∀ status, exit = .exited status → r' = status)
      (fun e => c.efi.eval ⟨p, r⟩ = .error e) p := by
  intro c
  induction c with
  | ret v =>
    intro p r
    exact ⟨r, rfl, fun status other => nomatch other⟩
  | exit status =>
    intro p r
    exact ⟨status, rfl, fun _ same => Exit.exited.inj same⟩
  | output op next ih =>
    intro p r
    rw [Client.run, wp_bind, wp_iff]
    constructor
    · intro n q run
      have ran : (efiOutput op : Prog (EfiContext M) Fault ℤ) ⟨p, r⟩ = .ok (n, ⟨q, r⟩) := by
        rw [efiOutput, onProcess, zoom, run]
      have same : (Client.output op next).efi.eval ⟨p, r⟩ = (next n).efi.eval ⟨q, r⟩ := run_bind ran
      rw [same]
      exact ih n q r
    · intro e run
      have ran : (efiOutput op : Prog (EfiContext M) Fault ℤ) ⟨p, r⟩ = .error e := by
        rw [efiOutput, onProcess, zoom, run]
      exact run_bind_error ran
  | work f next ih =>
    intro p r
    exact ih (f p.memory).1 { p with memory := (f p.memory).2 } r
  | call g next ihg ih =>
    intro p r
    rw [Client.run, wp_bind]
    apply wp_mono (ihg p r)
    · rintro exit q ⟨r', run, status⟩
      rw [Client.efi, Code.eval, run_bind run]
      cases exit with
      | exited st => exact ⟨r', rfl, status⟩
      | returned v =>
        dsimp only [Exit.value]
        rw [Int32.ofInt_toInt]
        exact ih v q r'
    · intro e run
      rw [Client.efi, Code.eval, run_bind_error run]
  | efiNanolibcCall retvalFailure fct next ihf ih =>
    intro p r
    rw [Client.run, wp_bind]
    apply wp_mono (ihf p r)
    · rintro exit q ⟨r', run, _⟩
      rw [Client.efi, Code.eval, run_bind run]
      cases exit with
      | exited st => exact ih retvalFailure q r'
      | returned v =>
        dsimp only [Exit.value]
        rw [Int32.ofInt_toInt]
        exact ih _ q r'
    · intro e run
      rw [Client.efi, Code.eval, run_bind_error run]

end Runs

section Start

variable {decimal : Int32 → Bytes} {stack : Vector UInt8 64} {memory memory' : M} {log more : Log}
  {r : Int32} {exit : Exit} {std : Std} {out : Bytes}

def Exit.message (decimal : Int32 → Bytes) : Exit → Bytes
  | .returned _ => []
  | .exited status => exitMessage decimal status

end Start

def exits (argc : Int32) : Client Unit :=
  .output (.fputc 33 (some .stdout)) fun _ => .call (.exit argc) .ret

theorem exits_portable : (exits 1).Portable := fun _ => ⟨trivial, fun _ => trivial⟩

theorem exits_valid : (exits 1).Valid := ⟨trivial, fun _ => ⟨trivial, fun _ => trivial⟩⟩

/-- A driver's routine, with the buffer as whatever ran before has left it, does not end in the
middle: an `exit` is the failure of the `EFI_NANOLIBC_CALL` around it and nothing else, in any
number of calls one after the other. -/
theorem driver_contains_exits (c : Client M) (flat : c.Flat) (valid : c.Valid) (memory : M)
    (log : Log) (buffer : Option (Buffer (EfiContext M) Fault ℤ ℤ)) (r : Int32) :
    ∃ v q r', c.run efiSysdeps ⟨memory, log⟩ = .ok (.returned v, q) ∧
      Ends (start c.efi buffer ⟨⟨memory, log⟩, r⟩) (.returned v.toInt ⟨q, r'⟩) := by
  obtain ⟨exit, memory', more, runs⟩ := run_whole efi_accepts c valid memory
  obtain ⟨r', ran, _⟩ := wp_ok (eval_efi c ⟨memory, log⟩ r) (runs log)
  obtain ⟨a, same, ends⟩ := wp_ok (flat_ends buffer flat.efi) ran
  cases exit with
  | exited status => cases same
  | returned v =>
    cases same
    exact ⟨v, _, r', runs log, ends⟩

def driver : Client Unit :=
  .efiNanolibcCall 7 (exits 1) fun first =>
    .efiNanolibcCall 7 (.ret 0) fun second => .ret (if first = 7 ∧ second = 0 then 1 else 2)

theorem driver_contains_exits_twice : ∃ v q r',
    driver.run efiSysdeps ⟨(), []⟩ = .ok (.returned v, q) ∧
    Ends (start driver.efi none ⟨⟨(), []⟩, 0⟩) (.returned v.toInt ⟨q, r'⟩) :=
  driver_contains_exits driver
    ⟨exits_portable, fun _ => ⟨trivial, fun _ => trivial⟩⟩
    ⟨exits_valid, fun _ => ⟨trivial, fun _ => trivial⟩⟩ () [] none 0

section Nested

/-- From `p` on, with every `exit` going back to the start of `c`, it returns in the end. -/
inductive Returns (c : Client M) : Process M → Int32 → Process M → Prop
  | returned {p q : Process M} {v : Int32} (run : c.run efiSysdeps p = .ok (.returned v, q)) :
    Returns c p v q
  | again {p q u : Process M} {v status : Int32}
    (run : c.run efiSysdeps p = .ok (.exited status, q)) (rest : Returns c q v u) : Returns c p v u

variable {c fct : Client M} {next : EfiStatus → Client M} {retvalFailure : EfiStatus}
  {p q : Process M} {r v : Int32}

theorem sound_efi (valid : c.Valid) : c.efi.Sound := by
  rintro ⟨⟨memory, log⟩, r⟩
  obtain ⟨exit, memory', more, runs⟩ := run_whole efi_accepts c valid memory
  obtain ⟨r', ran, _⟩ := wp_ok (eval_efi c ⟨memory, log⟩ r) (runs log)
  exact ⟨_, _, ran⟩

theorem run_of_eval (valid : c.Valid) {a : Option ℤ} {s : EfiContext M}
    (run : c.efi.eval ⟨p, r⟩ = .ok (a, s)) :
    ∃ exit : Exit, c.run efiSysdeps p = .ok (exit, s.process) ∧ a = exit.value := by
  obtain ⟨memory, log⟩ := p
  obtain ⟨exit, memory', more, runs⟩ := run_whole efi_accepts c valid memory
  obtain ⟨r', ran, _⟩ := wp_ok (eval_efi c ⟨memory, log⟩ r) (runs log)
  rw [ran] at run
  cases run
  exact ⟨exit, runs log, rfl⟩

theorem eval_of_run {exit : Exit} (run : c.run efiSysdeps p = .ok (exit, q)) (r : Int32) :
    ∃ r', c.efi.eval ⟨p, r⟩ = .ok (exit.value, ⟨q, r'⟩) := by
  obtain ⟨r', ran, _⟩ := wp_ok (eval_efi c p r) run
  exact ⟨r', ran⟩

theorem settles_of_returns (returns : Returns c p v q) :
    ∀ r, ∃ r', Settles c.efi ⟨p, r⟩ v.toInt ⟨q, r'⟩ := by
  induction returns with
  | returned run =>
    intro r
    obtain ⟨r', ran⟩ := eval_of_run run r
    exact ⟨r', .returns ran⟩
  | again run rest ih =>
    intro r
    obtain ⟨r', ran⟩ := eval_of_run run r
    obtain ⟨r'', settles⟩ := ih r'
    exact ⟨r'', .again ran settles⟩

theorem returns_of_settles (valid : c.Valid) {s t : EfiContext M} {a : ℤ}
    (settles : Settles c.efi s a t) : ∃ v, Returns c s.process v t.process := by
  induction settles with
  | returns run =>
    obtain ⟨exit, ran, same⟩ := run_of_eval valid run
    cases exit with
    | exited status => cases same
    | returned v => exact ⟨v, .returned ran⟩
  | again run rest ih =>
    obtain ⟨exit, ran, same⟩ := run_of_eval valid run
    obtain ⟨v, returns⟩ := ih
    cases exit with
    | returned v => cases same
    | exited status => exact ⟨v, .again ran returns⟩

/-- What a function does that goes on with `next` after an `EFI_NANOLIBC_CALL`: an `exit` there goes
back to where the call has failed. -/
inductive Retries (retvalFailure : EfiStatus) (fct : Client M) (next : EfiStatus → Client M)
    (p : Process M) : Int32 → Process M → Prop
  | returned {exit : Exit} {v : Int32} {t q : Process M}
    (call : fct.run efiSysdeps p = .ok (exit, t))
    (run : (next (exit.blockRetval retvalFailure)).run efiSysdeps t = .ok (.returned v, q)) :
    Retries retvalFailure fct next p v q
  | exited {exit : Exit} {v status : Int32} {t q u : Process M}
    (call : fct.run efiSysdeps p = .ok (exit, t))
    (run : (next (exit.blockRetval retvalFailure)).run efiSysdeps t = .ok (.exited status, q))
    (rest : Returns (next retvalFailure) q v u) : Retries retvalFailure fct next p v u

def afterCall (retvalFailure : EfiStatus) (next : EfiStatus → Client M) (v : ℤ) : EfiCode M :=
  (next (if Int32.ofInt v = 0 then efiSuccess else retvalFailure)).efi

theorem afterCall_toInt : afterCall retvalFailure next v.toInt =
    (next ((Exit.returned v).blockRetval retvalFailure)).efi := by
  rw [afterCall, Int32.ofInt_toInt]
  rfl

theorem resumes_of_retries (retries : Retries retvalFailure fct next p v q) (r : Int32) :
    ∃ r', Resumes fct.efi (afterCall retvalFailure next) (next retvalFailure).efi ⟨p, r⟩ v.toInt
      ⟨q, r'⟩ := by
  cases retries with
  | @returned exit _ t _ call run =>
    obtain ⟨r', called⟩ := eval_of_run call r
    obtain ⟨r'', ran⟩ := eval_of_run run r'
    cases exit with
    | returned w =>
      rw [← afterCall_toInt] at ran
      exact ⟨r'', .returns called ran⟩
    | exited status => exact ⟨r'', .thrown called (.returns ran)⟩
  | @exited exit _ status t _ _ call run rest =>
    obtain ⟨r', called⟩ := eval_of_run call r
    obtain ⟨r'', ran⟩ := eval_of_run run r'
    obtain ⟨r₃, settles⟩ := settles_of_returns rest r''
    cases exit with
    | returned w =>
      rw [← afterCall_toInt] at ran
      exact ⟨r₃, .back called ran settles⟩
    | exited status => exact ⟨r₃, .thrown called (.again ran settles)⟩

theorem retries_of_resumes (valid : fct.Valid) (valid_next : ∀ status, (next status).Valid) {a : ℤ}
    {s : EfiContext M}
    (resumes : Resumes fct.efi (afterCall retvalFailure next) (next retvalFailure).efi ⟨p, r⟩ a s) :
    ∃ v, Retries retvalFailure fct next p v s.process := by
  cases resumes with
  | returns run rest =>
    obtain ⟨exit, call, same⟩ := run_of_eval valid run
    cases exit with
    | exited status => cases same
    | returned w =>
      cases same
      rw [afterCall_toInt] at rest
      obtain ⟨exit, ran, same⟩ := run_of_eval (valid_next _) rest
      cases exit with
      | exited status => cases same
      | returned v => exact ⟨v, .returned call ran⟩
  | back run rest settles =>
    obtain ⟨exit, call, same⟩ := run_of_eval valid run
    cases exit with
    | exited status => cases same
    | returned w =>
      cases same
      rw [afterCall_toInt] at rest
      obtain ⟨exit, ran, same⟩ := run_of_eval (valid_next _) rest
      obtain ⟨v, returns⟩ := returns_of_settles (valid_next _) settles
      cases exit with
      | returned w' => cases same
      | exited status => exact ⟨v, .exited call ran returns⟩
  | thrown run settles =>
    obtain ⟨exit, call, same⟩ := run_of_eval valid run
    obtain ⟨v, returns⟩ := returns_of_settles (valid_next _) settles
    cases exit with
    | returned w => cases same
    | exited status =>
      cases returns with
      | returned ran => exact ⟨v, .returned call ran⟩
      | again ran rest => exact ⟨v, .exited call ran rest⟩

theorem callMain_begins {decimal : Int32 → Bytes} {stack : Vector UInt8 64} {main : Client M}
    {buffer : Option (Buffer (EfiContext M) Fault ℤ ℤ)} :
    Reaches step (start (callMain decimal stack main) buffer ⟨p, r⟩)
      (.running ⟨main.efi, 1, [⟨0, mainReturned⟩], 2, some ⟨0, mainThrown decimal stack⟩,
        ⟨p, exitFailure⟩⟩) :=
  reaches_step (reaches_step ReflTransGen.refl)

theorem callMain_finishes {n : ℕ} {buffer : Option (Buffer (EfiContext M) Fault ℤ ℤ)} :
    Reaches step (.running ⟨.ret v.toInt, 1, [⟨0, mainReturned⟩], n, buffer, ⟨q, r⟩⟩)
      (.halted (.returned v.toInt ⟨q, v⟩)) := by
  have back : Reaches step (.running ⟨.ret v.toInt, 1, [⟨0, mainReturned⟩], n, buffer, ⟨q, r⟩⟩)
      (.halted (.returned (Int32.ofInt v.toInt).toInt ⟨q, Int32.ofInt v.toInt⟩)) :=
    reaches_step (reaches_step (reaches_step (reaches_step ReflTransGen.refl)))
  rwa [Int32.ofInt_toInt] at back

end Nested

/-- `EFI_NANOLIBC_CALL` cannot be nested: behind one in `main`, `exit` does not get to `call_main`,
but starts again where the call has failed. `call_main` ends with what `main` returns after that,
without its message, and never if `main` exits each time. -/
theorem exit_after_call (decimal : Int32 → Bytes) (stack : Vector UInt8 64)
    (retvalFailure : EfiStatus) (fct : Client M) (next : EfiStatus → Client M)
    (portable : fct.Portable) (portable_next : ∀ status, (next status).Portable)
    (valid : fct.Valid) (valid_next : ∀ status, (next status).Valid) (p : Process M)
    (buffer : Option (Buffer (EfiContext M) Fault ℤ ℤ)) (r : Int32) :
    let main := Client.efiNanolibcCall retvalFailure fct next
    (∀ v q, Retries retvalFailure fct next p v q →
      Ends (start (callMain decimal stack main) buffer ⟨p, r⟩) (.returned v.toInt ⟨q, v⟩)) ∧
    ((¬ ∃ v q, Retries retvalFailure fct next p v q) →
      Forever (start (callMain decimal stack main) buffer ⟨p, r⟩)) := by
  intro main
  have plain_next : ∀ v, (afterCall retvalFailure next v).Plain := fun v => (portable_next _).plain
  constructor
  · intro v q retries
    obtain ⟨r', resumes⟩ := resumes_of_retries retries exitFailure
    obtain ⟨k, _, reaches⟩ : ∃ k, 1 < k ∧ Reaches step
        (.running ⟨main.efi, 1, [⟨0, mainReturned⟩], 2, some ⟨0, mainThrown decimal stack⟩,
          ⟨p, exitFailure⟩⟩)
        (.running ⟨.ret v.toInt, 1, [⟨0, mainReturned⟩], k, some ⟨1, (next retvalFailure).efi⟩,
          ⟨q, r'⟩⟩) :=
      resumes_reaches portable.plain plain_next (portable_next _).plain (by decide) resumes
    exact ends_iff.mpr (callMain_begins.trans (reaches.trans callMain_finishes))
  · intro never
    apply Forever.of_reaches callMain_begins
    apply resumes_forever portable.plain plain_next (portable_next _).plain (sound_efi valid)
      (fun v => sound_efi (valid_next _)) (sound_efi (valid_next _)) (by decide)
    rintro ⟨a, s, resumes⟩
    obtain ⟨v, retries⟩ := retries_of_resumes valid valid_next resumes
    exact never ⟨v, _, retries⟩

theorem exits_never_returns {c : Client Unit} (exits : ∀ p, ∃ status q,
    c.run efiSysdeps p = .ok (.exited status, q)) {p q : Process Unit} {v : Int32} :
    ¬ Returns c p v q := by
  intro returns
  induction returns with
  | @returned p _ _ run =>
    obtain ⟨status, q', other⟩ := exits p
    rw [other] at run
    cases run
  | again run rest ih => exact ih

theorem exit_after_call_forever :
    Forever (start (callMain (fun _ => [48]) (Vector.replicate 64 0)
      (.efiNanolibcCall 7 (.ret 0) fun _ => .exit 0)) none ⟨⟨(), []⟩, 0⟩) :=
  (exit_after_call (fun _ => [48]) (Vector.replicate 64 0) 7 (.ret 0 : Client Unit)
    (fun _ => .exit 0) trivial (fun _ => trivial) trivial (fun _ => trivial) ⟨(), []⟩ none 0).2 (by
      rintro ⟨v, q, retries⟩
      cases retries with
      | returned call run => cases run
      | exited call run rest => exact exits_never_returns (fun p => ⟨0, p, rfl⟩) rest)

/-- A function that used `EFI_NANOLIBC_CALL` has returned to `main`, and the buffer still leads into
it. -/
theorem returned_call_reaches {decimal : Int32 → Bytes} {stack : Vector UInt8 64}
    {retvalFailure : EfiStatus} {fct : Client M} {next : EfiStatus → Client M}
    {rest : Int32 → Client M} (portable : fct.Portable)
    (portable_next : ∀ status, (next status).Portable) {p t u : Process M} {exit : Exit} {v : Int32}
    (called : fct.run efiSysdeps p = .ok (exit, t))
    (returned : (next (exit.blockRetval retvalFailure)).run efiSysdeps t = .ok (.returned v, u))
    (buffer : Option (Buffer (EfiContext M) Fault ℤ ℤ)) (r : Int32) :
    ∃ k r', 2 < k ∧ Reaches step
      (start (callMain decimal stack (.call (.efiNanolibcCall retvalFailure fct next) rest)) buffer
        ⟨p, r⟩)
      (.running ⟨(rest v).efi, 1, [⟨0, mainReturned⟩], k, some ⟨2, (next retvalFailure).efi⟩,
        ⟨u, r'⟩⟩) := by
  have plain_next : ∀ v, (afterCall retvalFailure next v).Plain := fun v => (portable_next _).plain
  obtain ⟨r', resumes⟩ := resumes_of_retries (.returned called returned) exitFailure
  obtain ⟨k, less, reaches⟩ : ∃ k, 2 < k ∧ Reaches step
      (.running ⟨.attempt fct.efi (afterCall retvalFailure next) (next retvalFailure).efi, 2,
        [⟨1, fun v => (rest (Int32.ofInt v)).efi⟩, ⟨0, mainReturned⟩], 3,
        some ⟨0, mainThrown decimal stack⟩, ⟨p, exitFailure⟩⟩)
      (.running ⟨.ret v.toInt, 2, [⟨1, fun v => (rest (Int32.ofInt v)).efi⟩, ⟨0, mainReturned⟩], k,
        some ⟨2, (next retvalFailure).efi⟩, ⟨u, r'⟩⟩) :=
    resumes_reaches portable.plain plain_next (portable_next _).plain (by decide) resumes
  have enters : Reaches step
      (start (callMain decimal stack (.call (.efiNanolibcCall retvalFailure fct next) rest)) buffer
        ⟨p, r⟩)
      (.running ⟨.attempt fct.efi (afterCall retvalFailure next) (next retvalFailure).efi, 2,
        [⟨1, fun v => (rest (Int32.ofInt v)).efi⟩, ⟨0, mainReturned⟩], 3,
        some ⟨0, mainThrown decimal stack⟩, ⟨p, exitFailure⟩⟩) :=
    callMain_begins.trans (reaches_step ReflTransGen.refl)
  have leaves : Reaches step
      (.running ⟨.ret v.toInt, 2, [⟨1, fun v => (rest (Int32.ofInt v)).efi⟩, ⟨0, mainReturned⟩], k,
        some ⟨2, (next retvalFailure).efi⟩, ⟨u, r'⟩⟩)
      (.running ⟨(rest (Int32.ofInt v.toInt)).efi, 1, [⟨0, mainReturned⟩], k,
        some ⟨2, (next retvalFailure).efi⟩, ⟨u, r'⟩⟩) :=
    reaches_step ReflTransGen.refl
  rw [Int32.ofInt_toInt] at leaves
  exact ⟨k, r', less, enters.trans (reaches.trans leaves)⟩

/-- After a function has returned that used `EFI_NANOLIBC_CALL`, a `main` that returns ends as if
it had not been called, and an `exit` jumps into that function, which is no longer there. -/
theorem exit_after_returned_call (decimal : Int32 → Bytes) (stack : Vector UInt8 64)
    (retvalFailure : EfiStatus) (fct : Client M) (next : EfiStatus → Client M)
    (rest : Int32 → Client M) (portable : fct.Portable)
    (portable_next : ∀ status, (next status).Portable) (portable_rest : ∀ v, (rest v).Portable)
    (p t u : Process M) (exit : Exit) (v : Int32) (called : fct.run efiSysdeps p = .ok (exit, t))
    (returned : (next (exit.blockRetval retvalFailure)).run efiSysdeps t = .ok (.returned v, u))
    (buffer : Option (Buffer (EfiContext M) Fault ℤ ℤ)) (r : Int32) :
    let begin := start (callMain decimal stack
      (.call (.efiNanolibcCall retvalFailure fct next) rest)) buffer ⟨p, r⟩
    (∀ v' w, (rest v).run efiSysdeps u = .ok (.returned v', w) →
      Ends begin (.returned v'.toInt ⟨w, v'⟩)) ∧
    ∀ status w, (rest v).run efiSysdeps u = .ok (.exited status, w) →
      Ends begin (.lost ⟨w, status⟩) := by
  intro begin
  obtain ⟨k, r', less, gets⟩ : ∃ k r', 2 < k ∧ Reaches step begin
      (.running ⟨(rest v).efi, 1, [⟨0, mainReturned⟩], k, some ⟨2, (next retvalFailure).efi⟩,
        ⟨u, r'⟩⟩) :=
    returned_call_reaches portable portable_next called returned buffer r
  constructor
  · intro v' w ended
    obtain ⟨r'', run, _⟩ := wp_ok (eval_efi (rest v) u r') ended
    obtain ⟨n, _, comes⟩ : ComesTo ⟨(rest v).efi, 1, [⟨0, mainReturned⟩], k,
        some ⟨2, (next retvalFailure).efi⟩, ⟨u, r'⟩⟩ (some v'.toInt) ⟨w, r''⟩ :=
      plain_comes (portable_rest v).plain run
    exact ends_iff.mpr (gets.trans (comes.trans callMain_finishes))
  · intro status w exited
    obtain ⟨r'', run, same⟩ := wp_ok (eval_efi (rest v) u r') exited
    rw [same status rfl] at run
    have comes : ComesTo ⟨(rest v).efi, 1, [⟨0, mainReturned⟩], k,
        some ⟨2, (next retvalFailure).efi⟩, ⟨u, r'⟩⟩ none ⟨w, status⟩ :=
      plain_comes (portable_rest v).plain run
    have lost := reaches_lost comes less (unwind_dead (by decide) (by simp))
    exact ends_iff.mpr (gets.trans lost)

theorem exit_after_returned_call_zero :
    Ends (start (callMain (fun _ => [48]) (Vector.replicate 64 0)
      (.call (.efiNanolibcCall 7 (.ret 0) fun _ => .ret 0) .exit)) none ⟨⟨(), []⟩, 0⟩)
      (.lost ⟨⟨(), []⟩, 0⟩) :=
  (exit_after_returned_call (fun _ => [48]) (Vector.replicate 64 0) 7 (.ret 0 : Client Unit)
    (fun _ => .ret 0) .exit trivial (fun _ => trivial) (fun _ => trivial) ⟨(), []⟩ ⟨(), []⟩ ⟨(), []⟩
    (.returned 0) 0 rfl rfl none 0).2 0 ⟨(), []⟩ rfl

end Nanolibc.ClientModel
