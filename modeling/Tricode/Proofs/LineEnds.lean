import Tricode.Command
import Tricode.Proofs.Gating
import Tricode.Proofs.Independence
import Tricode.Proofs.Token.LineEnds
import Tricode.Service.Plain

/-!
# Line ends do not matter

A text and its translation with line feeds only (`unixText`) are compiled alike. If each carriage
return has a line feed behind it, the two compilations are equal; a lone carriage return moves what
follows it to another line, but changes neither words nor messages nor code (`compile_unixText`).

The command translates what it reads, and the service does not. Given the same text they still write
the same code (`stdout_run`, `handle_of_asks`). What the service is given is up to the web framework
around it; here the framework hands the request to the compile view and finds the text in the body
(`Service.Framework.Asks`).
-/

namespace Tricode

/-! ### Compilations -/

/-- The tokens of a compilation are those of the `scan`, whichever phase ends it. -/
theorem tokens_compile (options : Options) (source : String) :
    (compile options source).tokens = (scan source).1 := by
  unfold compile
  dsimp only
  split
  · rfl
  split
  · rfl
  split
  · rfl
  · unfold Compilation.withCode
    split
    · rfl
    · split <;> rfl

/-- A compilation is determined by the `scan`. -/
theorem compile_eq_of_scan (options : Options) {source source' : String}
    (h : scan source = scan source') :
    compile options source = compile options source' := by
  have hscanned : Compilation.ofSource options source = Compilation.ofSource options source' := by
    unfold Compilation.ofSource
    rw [h]
  unfold compile
  rw [hscanned]

/-- A text and its translation have the `SameWords`. -/
theorem sameWords_unixText (source : String) :
    SameWords (scan (unixText source)).1 (scan source).1 :=
  map_word_scan_unixText source

/-- The translation `unixText` is compiled like the text, also if only one of the compilations is
logged. -/
theorem alike_unixText {options options' : Options}
    (hoverflow : options.overflow = options'.overflow)
    (source : String) : (compile options (unixText source)).Alike (compile options' source) :=
  compile_alike_of_scan hoverflow (map_cause_scan_unixText source) (sameWords_unixText source)

/-! ### The command -/

namespace Command

open Text (Bytes)

/-- With these arguments the command has the settings, and it reads the bytes. -/
inductive Reads (arguments : List String) (directory : Directory) (stdin : Bytes) :
    Settings → Bytes → Prop where
  | stdin {settings : Settings} (harguments : parseArguments arguments = .ok (.compile settings))
    (hsource : settings.source? = none) : Reads arguments directory stdin settings stdin
  | file {settings : Settings} {name : String} {bytes : Bytes}
    (harguments : parseArguments arguments = .ok (.compile settings))
    (hsource : settings.source? = some name) (hname : '\x00' ∉ name.toList)
    (hread : directory.read name = .ok bytes) : Reads arguments directory stdin settings bytes

/-- The settings ask for no listing in front of the code. -/
def Settings.CodeOnly (settings : Settings) : Prop :=
  settings.has .tokens = false ∧ settings.has .tree = false ∧ settings.has .symbols = false

variable {arguments : List String} {directory : Directory} {stdin bytes : Bytes}
  {settings : Settings}

/-- `compileBytes` compiles the translation of the text that the bytes stand for. -/
theorem compileBytes_eq {source : String} (h : Text.Utf8.decode bytes = .ok source.toList) :
    compileBytes settings (.ok bytes) = compileText settings (unixText source) := by
  have hsource : sourceText bytes = .ok (unixText source) := by
    unfold sourceText
    rw [h]
    rfl
  unfold compileBytes
  rw [show (Except.ok bytes : Except ReadError Bytes).bind sourceText = sourceText bytes from rfl,
    hsource]

section

variable {m : Type → Type} [Monad m] {readFile : String → m (Except ReadError Bytes)}
  {readStdin : m Bytes}

/-- Without a file, `runWith` compiles what it reads from the standard input. -/
theorem runWith_stdin (harguments : parseArguments arguments = .ok (.compile settings))
    (hsource : settings.source? = none) :
    runWith readFile readStdin arguments = (do
      let bytes ← readStdin
      pure (.ok (compileBytes settings (.ok bytes)))) := by
  unfold runWith
  rw [harguments]
  dsimp only
  rw [hsource]

/-- With a file, `runWith` compiles what it reads from there. -/
theorem runWith_file {name : String}
    (harguments : parseArguments arguments = .ok (.compile settings))
    (hsource : settings.source? = some name) (hname : '\x00' ∉ name.toList) :
    runWith readFile readStdin arguments = (do
      let input ← readFile name
      pure (.ok (compileBytes settings input))) := by
  unfold runWith
  rw [harguments]
  dsimp only
  rw [hsource]
  dsimp only
  rw [if_neg (by simpa using hname)]

end

/-- `run` compiles the translation of what it reads. -/
theorem run_of_reads (hreads : Reads arguments directory stdin settings bytes) {source : String}
    (h : Text.Utf8.decode bytes = .ok source.toList) :
    run arguments directory stdin = .ok (compileText settings (unixText source)) := by
  unfold run
  cases hreads with
  | stdin harguments hsource =>
    rw [runWith_stdin harguments hsource, Id.run_bind, Id.run_pure, Id.run_pure, compileBytes_eq h]
  | file harguments hsource hname hread =>
    rw [runWith_file harguments hsource hname, Id.run_bind, Id.run_pure, Id.run_pure, hread,
      compileBytes_eq h]

/-- The output ends with the `code`, and if no `listing` is asked for it is the code. -/
theorem stdout_compileText (settings : Settings) (source : String) :
    ∃ listing, (compileText settings source).stdout =
        unlines (listing ++ (compile ⟨settings.has .verbose, none⟩ source).code.map Instr.line) ∧
      (settings.CodeOnly → listing = []) := by
  have hcode : (if (compile ⟨settings.has .verbose, none⟩ source).diagnostics.isEmpty then
      (compile ⟨settings.has .verbose, none⟩ source).code.map Instr.line else []) =
      (compile ⟨settings.has .verbose, none⟩ source).code.map Instr.line := by
    split
    · rfl
    · next hfound =>
      -- where something was found there is no code
      have hgated := (compile_ended ⟨settings.has .verbose, none⟩ source).gated
      rw [hgated.code_eq_nil (by simpa using hfound)]
      rfl
  unfold compileText
  dsimp only
  rw [hcode]
  refine ⟨_, rfl, ?_⟩
  rintro ⟨htokens, htree, hsymbols⟩
  simp [htokens, htree, hsymbols]

/-- The command writes the `code` of the text that it reads, whatever line ends the text has. -/
theorem stdout_run (hreads : Reads arguments directory stdin settings bytes) {source : String}
    (h : Text.Utf8.decode bytes = .ok source.toList) :
    ∃ report listing, run arguments directory stdin = .ok report ∧
      report.stdout = unlines (listing ++ (compile ⟨false, none⟩ source).code.map Instr.line) ∧
      (settings.CodeOnly → listing = []) := by
  obtain ⟨listing, hstdout, hlisting⟩ := stdout_compileText settings (unixText source)
  refine ⟨_, listing, run_of_reads hreads h, ?_, hlisting⟩
  -- the log does not touch the code
  have hoverflow : (⟨settings.has .verbose, none⟩ : Options).overflow =
      (⟨false, none⟩ : Options).overflow := rfl
  rw [hstdout, (alike_unixText hoverflow source).code]

end Command

/-! ### The service -/

namespace Service

/-- The framework hands the request to the compile view, and reads its body as an object with the
source text in its field `code`. -/
structure Framework.Asks (w : Framework) (r : Request) (source : String) : Prop where
  view : w.dispatch r = .view .compile
  content : ∃ value, w.content r = .value value ∧ value.field? "code" = some (.text source)

/-- A body that is well-formed JSON and not too long is read by `Framework.plain`. -/
theorem content_plain {limit : Nat} {r : Request} {value : Json}
    (hjson : isJson r.contentType = true)
    (hfits : r.body.length ≤ limit) (hvalue : Json.ofBytes? r.body = some value) :
    (Framework.plain limit).content r = .value value := by
  show Framework.plainContent limit r = .value value
  rw [Framework.plainContent, if_pos hjson, if_neg (Nat.not_lt.2 hfits), hvalue]
  rfl

/-- A source text is found in the field `code` only. -/
theorem field?_code_of_sourceOf {value : Json} {source : String}
    (h : sourceOf value = some source) :
    value.field? "code" = some (.text source) := by
  unfold sourceOf at h
  split at h
  · next found hfound => rw [hfound, Option.some.inj h]
  · cases h

/-- `compileAnswer` answers with the `code` of the text. -/
theorem compileAnswer_eq (source : String) :
    ∃ answer, compileAnswer none source = ⟨200, some answer⟩ ∧
      answer.field? "instructions" =
        some (.texts ((compile ⟨false, none⟩ source).code.map Instr.line)) :=
  ⟨_, rfl, rfl⟩

/-- Whatever `Framework` the service runs in, it answers to the text that it is asked about. -/
theorem handle_of_asks {w : Framework} {r : Request} {source : String} (h : w.Asks r source) :
    w.handle none r = w.send r (compileAnswer none source) := by
  obtain ⟨value, hcontent, hcode⟩ := h.content
  have hsource : sourceOf value = some source := by rw [sourceOf, hcode]
  have hanswer : w.answer none r .compile = compileAnswer none source := by
    rw [Framework.answer, hcontent, compileContent, hsource]
    rfl
  rw [Framework.handle, h.view, ← hanswer]

end Service

/-! ### All of it -/

/-- A text and its translation `unixText` have the `SameWords`, and what is found wrong with them is
the same, and so is the `code`; if the text is `Paired`, each carriage return with a line feed
behind it, the two compilations are equal. The command and the service therefore write the same code
for the same text: `Command.run` wherever it `Reads` the text, and `compileAnswer` in whatever
`Framework` `Asks` for it. -/
theorem compile_unixText (options : Options) (source : String) :
    (Paired source.toList → compile options (unixText source) = compile options source) ∧
    SameWords (compile options (unixText source)).tokens (compile options source).tokens ∧
    (compile options (unixText source)).diagnostics.map Diagnostic.message =
      (compile options source).diagnostics.map Diagnostic.message ∧
    (compile options (unixText source)).code = (compile options source).code ∧
    ∀ arguments directory stdin settings bytes (w : Service.Framework) (r : Service.Request),
      Command.Reads arguments directory stdin settings bytes →
      Text.Utf8.decode bytes = .ok source.toList → w.Asks r source →
      ∃ report listing answer lines,
        Command.run arguments directory stdin = .ok report ∧
        report.stdout = Command.unlines (listing ++ lines) ∧
        (settings.CodeOnly → listing = []) ∧
        w.handle none r = w.send r (Service.compileAnswer none source) ∧
        Service.compileAnswer none source = ⟨200, some answer⟩ ∧
        answer.field? "instructions" = some (.texts lines) := by
  have halike : (compile options (unixText source)).Alike (compile options source) :=
    alike_unixText rfl source
  refine ⟨fun hpaired => compile_eq_of_scan options (scan_unixText hpaired), ?_,
    halike.map_message_eq, halike.code, ?_⟩
  · rw [tokens_compile, tokens_compile]
    exact sameWords_unixText source
  -- the command translates what it reads and the service does not, but the code is the same
  · intro arguments directory stdin settings bytes w r hreads hdecode hasks
    obtain ⟨report, listing, hrun, hstdout, hlisting⟩ := Command.stdout_run hreads hdecode
    obtain ⟨answer, hanswer, hfield⟩ := Service.compileAnswer_eq source
    exact ⟨report, listing, answer, _, hrun, hstdout, hlisting, Service.handle_of_asks hasks,
      hanswer, hfield⟩

/-- A text in which lines end with two characters. -/
def pairedLines : String :=
  "int f()\r\n\x7b\r\n  return 1;\r\n\x7d\r\n"

/-- The bytes of a text in ASCII. -/
def asciiBytes (text : String) : Text.Bytes :=
  text.toList.map fun c => UInt8.ofNat c.toNat

/-- `decodeFrom` takes bytes below 128 one by one, for the characters with their numbers. -/
theorem decodeFrom_ascii (offset : Nat) (found : List Char) {cs : List Char}
    (h : ∀ c ∈ cs, c.toNat < 128) :
    Text.Utf8.decodeFrom offset found (cs.map fun c => UInt8.ofNat c.toNat) =
      .ok (found.reverse ++ cs) := by
  induction cs generalizing offset found with
  | nil => rw [List.append_nil]; rfl
  | cons c cs ih =>
    have hc : c.toNat < 128 := h c List.mem_cons_self
    have hbyte : (UInt8.ofNat c.toNat).toNat = c.toNat :=
      UInt8.toNat_ofNat_of_lt (Nat.lt_trans hc (by decide))
    -- the byte is the number of its character, and stands for it alone
    have hlow : UInt8.ofNat c.toNat < 0x80 := UInt8.lt_iff_toNat_lt.2 (hbyte.symm ▸ hc)
    rw [List.map_cons, Text.Utf8.decodeFrom, if_pos hlow, hbyte, Char.ofNat_toNat,
      ih _ _ fun d hd => h d (List.mem_cons_of_mem c hd), List.reverse_cons, List.append_assoc]
    rfl

/-- The `asciiBytes` of a text in ASCII are decoded to the text. -/
theorem decode_asciiBytes {text : String} (h : (text.toList.all fun c => c.toNat < 128) = true) :
    Text.Utf8.decode (asciiBytes text) = .ok text.toList :=
  decodeFrom_ascii 0 [] fun c hc => of_decide_eq_true (List.all_eq_true.1 h c hc)

/-- A request for the compilation of `pairedLines`. -/
def pairedRequest : Service.Request :=
  { method := "POST"
    target := "/compile"
    contentType := some "application/json"
    body := asciiBytes "\x7b\"code\": \"int f()\\r\\n\x7b\\r\\n  return 1;\\r\\n\x7d\\r\\n\"\x7d" }

/-- `pairedRequest` `Asks` for `pairedLines`, in the `Framework` to run the service with. -/
theorem asks_pairedRequest :
    (Service.Framework.plain Service.defaultLimit).Asks pairedRequest pairedLines := by
  have hread : ((Json.ofBytes? pairedRequest.body).bind Service.sourceOf) = some pairedLines := by
    decide +kernel
  obtain ⟨value, hvalue, hsource⟩ := Option.bind_eq_some_iff.1 hread
  exact ⟨by decide +kernel, value,
    Service.content_plain (by decide +kernel) (by decide +kernel) hvalue,
    Service.field?_code_of_sourceOf hsource⟩

/-- `pairedLines` is compiled like its translation, and the command and the service write the same
lines for it. -/
theorem compile_unixText_pairedLines :
    Paired pairedLines.toList ∧ unixText pairedLines ≠ pairedLines ∧
      compile ⟨false, none⟩ (unixText pairedLines) = compile ⟨false, none⟩ pairedLines ∧
      ∃ report answer lines,
        Command.run [] ⟨[]⟩ (asciiBytes pairedLines) = .ok report ∧
        report.stdout = Command.unlines lines ∧
        Service.compileAnswer none pairedLines = ⟨200, some answer⟩ ∧
        answer.field? "instructions" = some (.texts lines) := by
  have hpaired : Paired pairedLines.toList := by decide +kernel
  have hreads : Command.Reads [] ⟨[]⟩ (asciiBytes pairedLines) ⟨none, []⟩
      (asciiBytes pairedLines) :=
    .stdin rfl rfl
  have hdecode := @decode_asciiBytes pairedLines (by decide +kernel)
  obtain ⟨hequal, -, -, -, hsame⟩ := compile_unixText ⟨false, none⟩ pairedLines
  obtain ⟨report, listing, answer, lines, hrun, hstdout, hlisting, -, hanswer, hfield⟩ :=
    hsame [] ⟨[]⟩ _ _ _ (Service.Framework.plain Service.defaultLimit) pairedRequest hreads hdecode
      asks_pairedRequest
  -- no listing is asked for
  rw [hlisting ⟨rfl, rfl, rfl⟩, List.nil_append] at hstdout
  exact ⟨hpaired, by decide +kernel, hequal hpaired, report, answer, lines, hrun, hstdout, hanswer,
    hfield⟩

end Tricode
