import DrawPlus.Build.Compile
import DrawPlus.Proofs.Actions
import DrawPlus.Proofs.Building.Files
import DrawPlus.Proofs.Target.Spellings

/-!
# Builds are all or nothing

A run looks first and writes last. What it does until there is code is quiet: it adds to the report
and leaves the disk alone, however it ends. Only then the disk is touched, and the output is the
only file that is written. So a run that fails changes no file, unless it comes to the end of the
room for the output, and one that succeeds changes the output only.

Nothing here depends on what the builder keeps from earlier runs: the results hold for every
builder.
-/

namespace DrawPlus.Builder

/-! ## Quiet actions -/

section

variable {α β : Type}

/-- The action ends with this builder, whether it succeeds or not. -/
def EndsWith (x : Run α) (b b' : Builder) : Prop :=
  (∃ a, x b = .ok a b') ∨ ∃ e, x b = .error e b'

/-- The builders have the same disk and the same configuration. -/
structure SameFiles (b b' : Builder) : Prop where
  disk : b'.disk = b.disk
  configuration : b'.configuration = b.configuration

theorem SameFiles.trans {b b' b'' : Builder} (h : SameFiles b b') (h' : SameFiles b' b'') :
    SameFiles b b'' :=
  ⟨h'.disk.trans h.disk, h'.configuration.trans h.configuration⟩

/-- However the action ends, it leaves the files and only adds to the report. -/
def Quiet (x : Run α) : Prop :=
  ∀ b b', EndsWith x b b' → SameFiles b b' ∧ ∃ text, b'.report = b.report ++ text

theorem quiet_of_same {x : Run α} (h : ∀ b b', EndsWith x b b' →
    SameFiles b b' ∧ b'.report = b.report) : Quiet x := by
  intro b b' hb
  obtain ⟨hfiles, hreport⟩ := h b b' hb
  exact ⟨hfiles, "", by rw [hreport, String.append_empty]⟩

theorem Quiet.bind {x : Run α} {f : α → Run β} (hx : Quiet x) (hf : ∀ a, Quiet (f a)) :
    Quiet (x >>= f) := by
  intro b b' h
  have hsplit : EndsWith x b b' ∨ ∃ a m, x b = .ok a m ∧ EndsWith (f a) m b' := by
    rcases h with ⟨a, h⟩ | ⟨e, h⟩
    · obtain ⟨c, m, hc, hm⟩ := bind_eq_ok.mp h
      exact .inr ⟨c, m, hc, .inl ⟨a, hm⟩⟩
    · rcases bind_eq_error.mp h with h | ⟨c, m, hc, hm⟩
      · exact .inl (.inr ⟨e, h⟩)
      · exact .inr ⟨c, m, hc, .inr ⟨e, hm⟩⟩
  rcases hsplit with h | ⟨a, m, ha, hm⟩
  · exact hx b b' h
  · obtain ⟨hfiles, first, hfirst⟩ := hx b m (.inl ⟨a, ha⟩)
    obtain ⟨hfiles', second, hsecond⟩ := hf a m b' hm
    refine ⟨hfiles.trans hfiles', first ++ second, ?_⟩
    rw [hsecond, hfirst, String.append_assoc]

theorem quiet_pure (a : α) : Quiet (pure a) := by
  apply quiet_of_same
  rintro b b' (⟨_, h⟩ | ⟨_, h⟩) <;> cases h
  exact ⟨⟨rfl, rfl⟩, rfl⟩

theorem quiet_throw (e : BuildError) : Quiet (throw e : Run α) := by
  apply quiet_of_same
  rintro b b' (⟨_, h⟩ | ⟨_, h⟩) <;> cases h
  exact ⟨⟨rfl, rfl⟩, rfl⟩

end

theorem quiet_say (line : String) : Quiet (say line) := by
  rintro b b' (⟨_, h⟩ | ⟨_, h⟩) <;> cases h
  exact ⟨⟨rfl, rfl⟩, line ++ "\n", String.append_assoc ..⟩

theorem quiet_readFile (input : String) : Quiet (readFile input) := by
  apply quiet_of_same
  intro b b' h
  unfold EndsWith readFile at h
  split at h <;> rcases h with ⟨_, h⟩ | ⟨_, h⟩ <;> cases h <;> exact ⟨⟨rfl, rfl⟩, rfl⟩

theorem quiet_tokenize (source : String) : Quiet (tokenize source) := by
  apply quiet_of_same
  intro b b' h
  unfold EndsWith tokenize at h
  split at h <;> rcases h with ⟨_, h⟩ | ⟨_, h⟩ <;> cases h <;> exact ⟨⟨rfl, rfl⟩, rfl⟩

theorem quiet_parse (tokens : List Token) : Quiet (parse tokens) := by
  apply quiet_of_same
  intro b b' h
  unfold EndsWith parse at h
  split at h <;> rcases h with ⟨_, h⟩ | ⟨_, h⟩ <;> cases h <;> exact ⟨⟨rfl, rfl⟩, rfl⟩

theorem quiet_check (tree : Node) : Quiet (check tree) := by
  apply quiet_of_same
  intro b b' h
  unfold EndsWith check at h
  split at h <;> rcases h with ⟨_, h⟩ | ⟨_, h⟩ <;> cases h <;> exact ⟨⟨rfl, rfl⟩, rfl⟩

theorem examine_of_not {input : String} (h : isSourceName input = false) :
    examine input = throw .notSource := by
  unfold examine
  rw [h]
  rfl

theorem quiet_examine (input : String) : Quiet (examine input) := by
  cases h : isSourceName input with
  | false =>
    rw [examine_of_not h]
    exact quiet_throw _
  | true =>
    unfold examine
    rw [h]
    refine (quiet_say _).bind fun _ => (quiet_readFile _).bind fun source => ?_
    refine (quiet_say _).bind fun _ => (quiet_tokenize source).bind fun tokens => ?_
    refine (quiet_say _).bind fun _ => (quiet_say _).bind fun _ => (quiet_say _).bind fun _ => ?_
    refine (quiet_parse tokens).bind fun tree => ?_
    refine (quiet_say _).bind fun _ => (quiet_say _).bind fun _ => (quiet_say _).bind fun _ => ?_
    exact (quiet_check tree).bind fun _ => quiet_pure tree

/-! ## How the first stages end -/

/-- What the first stages do with tokens. -/
def examineTokens (tokens : List Token) : Run Node := do
  let tree ← parse tokens
  say "✓ Syntax analysis completed successfully"
  say ("Number of statements: " ++ toString (tree.statements?.getD []).length)
  say "\n[4/5] Performing semantic analysis..."
  check tree
  return tree

/-- What the first stages do with a text. -/
def examineSource (source : String) : Run Node := do
  let tokens ← tokenize source
  say "✓ Your code has been tokenized successfully"
  say ("Number of tokens: " ++ toString tokens.length)
  say "\n[3/5] Performing syntax analysis..."
  examineTokens tokens

section

variable {b : Builder} {input source : String} {tokens : List Token} {tree : Node}

theorem readFile_of_ok (h : b.disk.readText input = .ok source) :
    readFile input b = .ok source b := by
  unfold readFile
  rw [h]

theorem tokenize_of_ok (h : Token.ofText source = .ok tokens) :
    tokenize source b = .ok tokens { b with tokens := some tokens } := by
  unfold tokenize
  rw [h]

theorem parse_of_ok (h : Node.ofTokens tokens = .ok tree) :
    parse tokens b = .ok tree { b with tree := some tree } := by
  unfold parse
  rw [h]

theorem examine_of_unread (hname : isSourceName input = true) {e : ReadError}
    (h : b.disk.readText input = .error e) : ∃ e' b', examine input b = .error e' b' := by
  have hread (m : Builder) (hm : m.disk = b.disk) : ∃ e', readFile input m = .error e' m := by
    unfold readFile
    rw [hm, h]
    cases e <;> exact ⟨_, rfl⟩
  obtain ⟨e', he⟩ :=
    hread { b with report := b.report ++ ("\n[1/5] Reading source file: " ++ input) ++ "\n" } rfl
  unfold examine
  rw [hname]
  exact ⟨e', _, (bind_of_ok rfl).trans (bind_of_error he)⟩

variable (hname : isSourceName input = true) (hread : b.disk.readText input = .ok source)

include hname hread

/-- Once the source is read, the rest is done with it. -/
theorem examine_of_read : ∃ m, examine input b = examineSource source m := by
  unfold examine
  rw [hname]
  exact ⟨_, (bind_of_ok rfl).trans ((bind_of_ok (readFile_of_ok (by exact hread))).trans
    (bind_of_ok rfl))⟩

theorem examine_of_lexical {e : LexicalError} (h : Token.ofText source = .error e) :
    ∃ b', examine input b = .error (.other e.message) b' := by
  obtain ⟨m, hm⟩ := examine_of_read hname hread
  have htokenize : tokenize source m = .error (.other e.message) m := by
    unfold tokenize
    rw [h]
  exact ⟨m, hm.trans (bind_of_error htokenize)⟩

/-- Once there are tokens, they are parsed, and the tree is checked. -/
theorem examine_of_tokens (ht : Token.ofText source = .ok tokens) :
    ∃ m, examine input b = examineTokens tokens m := by
  obtain ⟨m, hm⟩ := examine_of_read hname hread
  exact ⟨_, hm.trans ((bind_of_ok (tokenize_of_ok ht)).trans ((bind_of_ok rfl).trans
    ((bind_of_ok rfl).trans (bind_of_ok rfl))))⟩

theorem examine_of_grammar (ht : Token.ofText source = .ok tokens) {e : SyntaxError}
    (h : Node.ofTokens tokens = .error e) :
    ∃ b', examine input b = .error (.other (e.message?.getD "")) b' := by
  obtain ⟨m, hm⟩ := examine_of_tokens hname hread ht
  have hparse : parse tokens m = .error (.other (e.message?.getD "")) m := by
    unfold parse
    rw [h]
  exact ⟨m, hm.trans (bind_of_error hparse)⟩

theorem examine_of_tree (hn : Node.ofText source = .ok tree) :
    ∃ m, examine input b = (check tree >>= fun _ => pure tree : Run Node) m := by
  obtain ⟨tokens, ht, hn⟩ := exists_ofTokens_of_ofText hn
  obtain ⟨m, hm⟩ := examine_of_tokens hname hread ht
  exact ⟨_, hm.trans ((bind_of_ok (parse_of_ok hn)).trans ((bind_of_ok rfl).trans
    ((bind_of_ok rfl).trans (bind_of_ok rfl))))⟩

theorem examine_of_rules (hn : Node.ofText source = .ok tree) {e : ScopeError}
    (h : tree.check = .error e) : ∃ b', examine input b = .error (.rules e) b' := by
  obtain ⟨m, hm⟩ := examine_of_tree hname hread hn
  have hcheck : check tree m = .error (.rules e) m := by
    unfold check
    rw [h]
  exact ⟨m, hm.trans (bind_of_error hcheck)⟩

theorem examine_of_check (hn : Node.ofText source = .ok tree) (h : tree.check = .ok ()) :
    ∃ b', examine input b = .ok tree b' := by
  obtain ⟨m, hm⟩ := examine_of_tree hname hread hn
  have hcheck : check tree m = .ok () m := by
    unfold check
    rw [h]
  exact ⟨m, hm.trans (bind_of_ok hcheck)⟩

end

/-- The first stages give the tree of a source file that is named, read, parsed and accepted. -/
theorem examine_eq_ok_iff {b : Builder} {input : String} {tree : Node} :
    (∃ b', examine input b = .ok tree b') ↔
      isSourceName input = true ∧ ∃ source, b.disk.readText input = .ok source ∧
        Node.ofText source = .ok tree ∧ tree.check = .ok () := by
  constructor
  · rintro ⟨b', h⟩
    -- any other way to end is a failure
    have hok {e : BuildError} : ¬∃ b', examine input b = .error e b' := by simp [h]
    cases hname : isSourceName input with
    | false =>
      rw [examine_of_not hname] at h
      cases h
    | true =>
      cases hread : b.disk.readText input with
      | error e =>
        obtain ⟨e', he⟩ := examine_of_unread hname hread
        exact absurd he hok
      | ok source =>
        refine ⟨rfl, source, rfl, ?_⟩
        cases ht : Token.ofText source with
        | error e => exact absurd (examine_of_lexical hname hread ht) hok
        | ok tokens =>
          cases hn : Node.ofTokens tokens with
          | error e => exact absurd (examine_of_grammar hname hread ht hn) hok
          | ok other =>
            have hother := ofText_of_ofTokens ht hn
            cases hc : other.check with
            | error e => exact absurd (examine_of_rules hname hread hother hc) hok
            | ok _ =>
              obtain ⟨m, hm⟩ := examine_of_check hname hread hother hc
              rw [h] at hm
              cases hm
              exact ⟨hother, hc⟩
  · rintro ⟨hname, source, hread, hn, hc⟩
    exact examine_of_check hname hread hn hc

/-! ## The spellings -/

section

variable {b b' : Builder} {d : Dialect}

/-- The configuration of the builder gives this dialect: its file can be read, its text can be read
into tables, and no table is missing. -/
def Spells (b : Builder) (d : Dialect) : Prop :=
  ∃ text source, b.disk.readText b.configuration.path = .ok text ∧
    b.configuration.read text = .ok source ∧ Dialect.ofSource source = .ok d

/-- The configuration gives a dialect, and it has header lines. -/
def Configured (b : Builder) : Prop := ∃ d, b.Spells d ∧ d.headers.isSome

theorem SameFiles.spells_iff (h : SameFiles b b') : b'.Spells d ↔ b.Spells d := by
  rw [Spells, Spells, h.disk, h.configuration]

theorem Spells.unique {d' : Dialect} (h : b.Spells d) (h' : b.Spells d') : d = d' := by
  obtain ⟨text, source, htext, hsource, hd⟩ := h
  obtain ⟨text', source', htext', hsource', hd'⟩ := h'
  cases htext.symm.trans htext'
  cases hsource.symm.trans hsource'
  exact Except.ok.inj (hd.symm.trans hd')

theorem quiet_spellings : Quiet spellings := by
  have hget : Quiet (get : Run Builder) := by
    apply quiet_of_same
    rintro b b' (⟨_, h⟩ | ⟨_, h⟩) <;> cases h
    exact ⟨⟨rfl, rfl⟩, rfl⟩
  refine hget.bind fun b => (quiet_readFile _).bind fun text => ?_
  cases b.configuration.read text with
  | error message => exact quiet_throw _
  | ok source =>
    dsimp only
    cases Dialect.ofSource source with
    | error name => exact quiet_throw _
    | ok d => exact quiet_pure d

theorem spellings_eq_ok : (∃ b', spellings b = .ok d b') ↔ b.Spells d := by
  have hget : (get : Run Builder) b = .ok b b := rfl
  unfold spellings
  rw [bind_of_ok hget]
  cases hread : b.disk.readText b.configuration.path with
  | error e =>
    obtain ⟨e', he⟩ : ∃ e', readFile b.configuration.path b = .error e' b := by
      unfold readFile
      rw [hread]
      cases e <;> exact ⟨_, rfl⟩
    rw [bind_of_error he]
    simp [Spells, hread]
  | ok text =>
    rw [bind_of_ok (readFile_of_ok hread)]
    cases hsource : b.configuration.read text with
    | error message => simp [Spells, hread, hsource]
    | ok source =>
      cases hdialect : Dialect.ofSource source <;> simp [Spells, hread, hsource, hdialect, eq_comm]

end

/-! ## Everything before the output is written -/

section

variable {b b' : Builder} {d : Dialect} {tree : Node} {input code : String}

/-- The part of a run that comes to the code for a source file. -/
def prepare (input : String) : Run String := do
  let tree ← examine input
  say "✓ Semantic analysis completed successfully"
  say "\n[5/5] Generating code..."
  let dialect ← spellings
  emit dialect tree

theorem stages_eq (input : String) (output : Option String) : stages input output = (do
    let code ← prepare input
    writeFile (output.getD (defaultOutput input)) code
    say ("✓ C code generated successfully: " ++ output.getD (defaultOutput input))
    say "\n✨ Compilation completed successfully!") := by
  simp only [stages, produce, generate, prepare, bind_assoc]

theorem quiet_emit (d : Dialect) (tree : Node) : Quiet (emit d tree) := by
  apply quiet_of_same
  intro b b' h
  unfold EndsWith emit at h
  split at h <;> rcases h with ⟨_, h⟩ | ⟨_, h⟩ <;> cases h <;> exact ⟨⟨rfl, rfl⟩, rfl⟩

theorem emit_eq_ok : (∃ b', emit d tree b = .ok code b') ↔ tree.code d = .ok code := by
  unfold emit
  cases tree.code d <;> simp

theorem quiet_prepare (input : String) : Quiet (prepare input) :=
  (quiet_examine input).bind fun tree => (quiet_say _).bind fun _ => (quiet_say _).bind fun _ =>
    quiet_spellings.bind fun d => quiet_emit d tree

/-- The source file can be read, and the program in it is accepted. -/
def Accepted (d : Disk) (input : String) : Prop :=
  ∃ source tree, d.readText input = .ok source ∧ Node.ofText source = .ok tree ∧ tree.check = .ok ()

/-- The code for the program in the source file, in the spellings of the configuration. -/
def CodeOf (b : Builder) (input code : String) : Prop :=
  ∃ source tree d, b.disk.readText input = .ok source ∧ Node.ofText source = .ok tree ∧
    b.Spells d ∧ tree.code d = .ok code

theorem CodeOf.unique {code' : String} (h : b.CodeOf input code) (h' : b.CodeOf input code') :
    code = code' := by
  obtain ⟨source, tree, d, hsource, htree, hd, hcode⟩ := h
  obtain ⟨source', tree', d', hsource', htree', hd', hcode'⟩ := h'
  cases hsource.symm.trans hsource'
  cases htree.symm.trans htree'
  obtain rfl := hd.unique hd'
  exact Except.ok.inj (hcode.symm.trans hcode')

theorem of_prepare (h : prepare input b = .ok code b') : isSourceName input = true ∧
    Accepted b.disk input ∧ b.Configured ∧ b.CodeOf input code := by
  obtain ⟨tree, m, hm, h⟩ := bind_eq_ok.mp h
  obtain ⟨_, m₁, hm₁, h⟩ := bind_eq_ok.mp h
  obtain ⟨_, m₂, hm₂, h⟩ := bind_eq_ok.mp h
  obtain ⟨d, m₃, hm₃, h⟩ := bind_eq_ok.mp h
  have hsame : SameFiles b m₂ :=
    ((quiet_examine _ _ _ (.inl ⟨_, hm⟩)).1.trans (quiet_say _ _ _ (.inl ⟨_, hm₁⟩)).1).trans
      (quiet_say _ _ _ (.inl ⟨_, hm₂⟩)).1
  obtain ⟨hname, source, hread, hn, hc⟩ := examine_eq_ok_iff.mp ⟨m, hm⟩
  have hd : b.Spells d := hsame.spells_iff.mp (spellings_eq_ok.mp ⟨m₃, hm₃⟩)
  have hcode := emit_eq_ok.mp ⟨b', h⟩
  refine ⟨hname, ⟨source, tree, hread, hn, hc⟩, ⟨d, hd, ?_⟩, source, tree, d, hread, hn, hd, hcode⟩
  by_contra hnone
  rw [code_of_no_headers (by simpa using hnone)] at hcode
  cases hcode

/-- There is code if the source file is named as one, its program is accepted, and the configuration
is in order. -/
theorem exists_prepare (hname : isSourceName input = true) (h : Accepted b.disk input)
    (hconfigured : b.Configured) : ∃ code b', prepare input b = .ok code b' := by
  obtain ⟨source, tree, hread, hn, hc⟩ := h
  obtain ⟨d, hd, hheaders⟩ := hconfigured
  obtain ⟨code, hcode⟩ := exists_code_of_check hheaders hn hc
  obtain ⟨m, hm⟩ := examine_of_check hname hread hn hc
  let said (m : Builder) (line : String) : Builder := { m with report := m.report ++ line ++ "\n" }
  let m₂ := said (said m "✓ Semantic analysis completed successfully") "\n[5/5] Generating code..."
  have hsame : SameFiles b m₂ :=
    (quiet_examine _ _ _ (.inl ⟨_, hm⟩)).1.trans ⟨rfl, rfl⟩
  obtain ⟨m₃, hm₃⟩ := spellings_eq_ok.mpr (hsame.spells_iff.mpr hd)
  obtain ⟨b', hb'⟩ := emit_eq_ok (b := m₃) |>.mpr hcode
  refine ⟨code, b', (bind_of_ok hm).trans ((bind_of_ok rfl).trans ((bind_of_ok rfl).trans ?_))⟩
  exact (bind_of_ok hm₃).trans hb'

end

/-! ## Writing the output -/

section

variable {b : Builder} {output text : String}

theorem writeFile_of_takes (h : b.disk.Accepts output) (htakes : b.disk.Takes output text) :
    ∃ b' path, writeFile output text b = .ok () b' ∧
      b.disk.Wrote b'.disk output (.text text) path := by
  obtain ⟨made, path, hmade, hpath⟩ := h.exists_writable
  obtain ⟨hroom, hfiles⟩ := Disk.fileAt?_makeBelow _ _ _ _ (.inl hmade)
  have hcut : made.cut? path (.text text) = none := by
    rw [Disk.cut?, hroom]
    exact htakes made path hmade hpath
  refine ⟨{ b with disk := made.put path (.file (.text text)) }, path, ?_,
    (Disk.wrote_put hpath (.text text)).of_same hfiles⟩
  simp only [writeFile, hmade, Disk.writeText, Disk.write_done hpath hcut]

theorem writeFile_of_not_takes (h : b.disk.Accepts output) (hcut : ¬b.disk.Takes output text) :
    ∃ e b' path, writeFile output text b = .error e b' ∧
      b.disk.Stopped b'.disk output (.text text) path := by
  obtain ⟨made, path, hmade, hpath⟩ := h.exists_writable
  obtain ⟨hroom, hfiles⟩ := Disk.fileAt?_makeBelow _ _ _ _ (.inl hmade)
  cases hbeginning : b.disk.cut? path (.text text) with
  | none =>
    refine absurd (fun made' path' hmade' hpath' => ?_) hcut
    cases hmade.symm.trans hmade'
    cases hpath.symm.trans hpath'
    exact hbeginning
  | some beginning =>
    have hcut' : made.cut? path (.text text) = some beginning := by
      rw [Disk.cut?, hroom]
      exact hbeginning
    refine ⟨.ofFile ⟨.noSpace, output⟩, { b with disk := made.put path (.file beginning) }, path,
      ?_, beginning, hbeginning, (Disk.wrote_put hpath beginning).of_same hfiles⟩
    simp only [writeFile, hmade, Disk.writeText, Disk.write_stopped hpath hcut']

theorem writeFile_of_not_accepts (h : ¬b.disk.Accepts output) (text : String) :
    ∃ e b', writeFile output text b = .error e b' ∧
      ∀ path, b'.disk.fileAt? path = b.disk.fileAt? path := by
  unfold writeFile
  cases hmade : Disk.makeDirectories (b.disk.absolute output).dropLast b.disk with
  | error e made => exact ⟨_, _, rfl, (Disk.fileAt?_makeBelow _ _ _ _ (.inr ⟨e, hmade⟩)).2⟩
  | ok _ made =>
    cases hpath : made.writable output with
    | ok path => exact absurd (Disk.accepts_of_writable hmade hpath) h
    | error fault =>
      simp only [Disk.writeText, Disk.write_refused hpath]
      exact ⟨_, _, rfl, (Disk.fileAt?_makeBelow _ _ _ _ (.inl hmade)).2⟩

end

/-! ## Whole runs -/

section

variable {b b' m : Builder} {input code : String} {output : Option String} {e : BuildError}

theorem compile_of_unprepared (h : prepare input b = .error e b') : b.compile input output =
    (false, { b' with report := b'.report ++ "\n" ++ e.report input ++ "\n" }) := by
  rw [compile, stages_eq, bind_of_error h]

theorem compile_of_unwritten (h : prepare input b = .ok code m)
    (hw : writeFile (output.getD (defaultOutput input)) code m = .error e b') :
    b.compile input output =
      (false, { b' with report := b'.report ++ "\n" ++ e.report input ++ "\n" }) := by
  rw [compile, stages_eq, bind_of_ok h, bind_of_error hw]

theorem compile_of_written (h : prepare input b = .ok code m)
    (hw : writeFile (output.getD (defaultOutput input)) code m = .ok () b') :
    (b.compile input output).1 = true ∧ (b.compile input output).2.disk = b'.disk := by
  rw [compile, stages_eq, bind_of_ok h, bind_of_ok hw]
  exact ⟨rfl, rfl⟩

theorem compile_of_refused (h : examine input b = .error e b') : b.compile input output =
    (false, { b' with report := b'.report ++ "\n" ++ e.report input ++ "\n" }) :=
  compile_of_unprepared (bind_of_error h)

end

theorem isSourceName_iff {input : String} :
    isSourceName input = true ↔ ∃ stem, input = stem ++ ".dpp" := by
  unfold isSourceName
  rw [List.isSuffixOf_iff_suffix]
  constructor
  · rintro ⟨stem, h⟩
    refine ⟨String.ofList stem, String.toList_injective ?_⟩
    rw [String.toList_append, String.toList_ofList, h]
  · rintro ⟨stem, rfl⟩
    exact ⟨stem.toList, by rw [String.toList_append]⟩

/-- The output for a source file when none is given: the extension is replaced, or kept if nothing
but points stands before it. -/
theorem defaultOutput_append (stem : String) : defaultOutput (stem ++ ".dpp") =
    if (baseName stem).toList.any (· != '.') then stem ++ ".c" else stem ++ ".dpp" ++ ".c" := by
  have h : withoutExtension (stem ++ ".dpp") = _ :=
    @withoutExtension_append stem ['d', 'p', 'p'] (by decide) (by decide)
  rw [defaultOutput, h]
  split_ifs <;> rfl

/-- What a run needs: a source file by its name that can be read, a program in it that is accepted,
and an output that can be written. -/
structure Buildable (d : Disk) (input target : String) : Prop where
  named : ∃ stem, input = stem ++ ".dpp"
  accepted : Accepted d input
  output : d.Accepts target

section

variable {b : Builder} {input : String} {output : Option String}

/-- A run that has what it needs writes the code, or as much of it as there is room for. -/
theorem compile_of_buildable (h : Buildable b.disk input (output.getD (defaultOutput input)))
    (hconfigured : b.Configured) : ∃ code path, b.CodeOf input code ∧
      (b.disk.Takes (output.getD (defaultOutput input)) code ∧ (b.compile input output).1 = true ∧
          b.disk.Wrote (b.compile input output).2.disk (output.getD (defaultOutput input))
            (.text code) path ∨
        ¬b.disk.Takes (output.getD (defaultOutput input)) code ∧
          (b.compile input output).1 = false ∧
          b.disk.Stopped (b.compile input output).2.disk (output.getD (defaultOutput input))
            (.text code) path) := by
  obtain ⟨code, m, hm⟩ := exists_prepare (isSourceName_iff.mpr h.named) h.accepted hconfigured
  have hcode := (of_prepare hm).2.2.2
  have hdisk : m.disk = b.disk := (quiet_prepare input b m (.inl ⟨code, hm⟩)).1.disk
  have haccepts : m.disk.Accepts (output.getD (defaultOutput input)) := hdisk ▸ h.output
  by_cases htakes : m.disk.Takes (output.getD (defaultOutput input)) code
  · obtain ⟨b', path, hw, hwrote⟩ := writeFile_of_takes haccepts htakes
    obtain ⟨htrue, hafter⟩ := compile_of_written hm hw
    refine ⟨code, path, hcode, .inl ⟨hdisk ▸ htakes, htrue, ?_⟩⟩
    rwa [hafter, ← hdisk]
  · obtain ⟨e, b', path, hw, hstopped⟩ := writeFile_of_not_takes haccepts htakes
    refine ⟨code, path, hcode, .inr ⟨hdisk ▸ htakes, ?_⟩⟩
    rw [compile_of_unwritten hm hw]
    exact ⟨rfl, hdisk ▸ hstopped⟩

/-- A run that lacks something fails and changes no file. -/
theorem compile_of_not_buildable
    (h : ¬(Buildable b.disk input (output.getD (defaultOutput input)) ∧ b.Configured)) :
    (b.compile input output).1 = false ∧
      ∀ path, (b.compile input output).2.disk.fileAt? path = b.disk.fileAt? path := by
  cases hm : prepare input b with
  | error e b' =>
    have hdisk := (quiet_prepare input b b' (.inr ⟨e, hm⟩)).1.disk
    rw [compile_of_unprepared hm]
    exact ⟨rfl, fun path => by rw [← hdisk]⟩
  | ok code m =>
    have hdisk := (quiet_prepare input b m (.inl ⟨code, hm⟩)).1.disk
    obtain ⟨hname, haccepted, hconfigured, -⟩ := of_prepare hm
    have hrefused : ¬m.disk.Accepts (output.getD (defaultOutput input)) := fun haccepts =>
      h ⟨⟨isSourceName_iff.mp hname, haccepted, hdisk ▸ haccepts⟩, hconfigured⟩
    obtain ⟨e, b', hw, hfiles⟩ := writeFile_of_not_accepts hrefused code
    rw [compile_of_unwritten hm hw]
    exact ⟨rfl, fun path => (hfiles path).trans (by rw [hdisk])⟩

end

/-- A disk with the source of an empty window under a name that has nothing before its extension. -/
def windowDisk : Disk := (Disk.empty "/home").put [".dpp"]
  (.file (.text "var int windowWidth = 400; var int windowHeight = 400;"))

end DrawPlus.Builder
