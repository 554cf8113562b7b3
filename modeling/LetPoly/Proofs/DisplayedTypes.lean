import LetPoly.Proofs.Generalization
import LetPoly.Proofs.TypeTexts

/-! # Reading what is displayed

The variables of a displayed type are called by the letters of the numbers from one to
their count (`Ty.mem_names_canonical`).  Read as a source, such a row of letters is one
word, but it need not be a name: the letters of 240 are the keyword `if`, and this is the
first keyword among them (`named_displayName`).

With fewer variables the displayed text is a phrase for the type that it shows
(`Ty.parse_display`), and this type is displayed in the same way again, because it is the
canonical form under other names (`Ty.display_shown`).  With 240 variables or more the
text has the word `if`, which is in no phrase (`Ty.parse_display_keyword`).
-/

namespace LetPoly

open Token Word

/-! ## Letters as words -/

theorem isLetter_of_isLower {c : Char} (h : c.isLower) : isLetter c := by
  simp only [Char.isLower, Bool.and_eq_true, decide_eq_true_eq, ge_iff_le] at h
  simp only [isLetter, Bool.or_eq_true, Bool.and_eq_true, decide_eq_true_eq, Char.le_def]
  exact .inl (.inl h)

theorem isWord_letters {n : Nat} (hn : 0 < n) : isWord (letters n) := by
  have hlower (c : Char) (hc : c ∈ letters n) : isLetter c :=
    isLetter_of_isLower (isLower_of_mem_letters hc)
  cases h : letters n with
  | nil => simp [letters_of_pos hn] at h
  | cons c cs =>
    rw [h] at hlower
    obtain ⟨hc, hcs⟩ := List.forall_mem_cons.1 hlower
    simp only [isWord, hc, Bool.true_and, List.all_eq_true]
    exact fun d hd => by simp [isWordChar, hcs d hd]

theorem letters_if : letters 240 = Kind.kwIf.name.toList := by cbv

theorem displayName_if : displayName (Text.Decimal.natural 240) = Kind.kwIf.name := by
  rw [displayName_natural (by decide), if_pos (by decide), letters_if, String.ofList_toList]

/-- **The letters of a number below 240 are a name.** -/
theorem named_displayName {n : Nat} (hpos : 0 < n) (hn : n < 240) :
    Named (displayName (Text.Decimal.natural n)) := by
  have hcapacity : 240 < Supply.capacity := by decide
  have hshort : ∀ k ∈ Kind.keywords, k.name.toList.length ≤ 2 → k = .kwIf ∨ k = .underscore := by
    decide
  rw [displayName_natural hpos, if_pos (by omega)]
  refine ⟨by simpa using isWord_letters hpos, ?_⟩
  rw [Kind.ofWord, List.find?_eq_none.2, Option.getD_none]
  intro k hk hname
  have hname : k.name.toList = letters n := by rw [eq_of_beq hname, String.toList_ofList]
  have hlength : (letters n).length ≤ 2 :=
    (length_letters_le_iff 2 n).2 (Nat.le_trans (Nat.le_of_lt hn) (by decide))
  rcases hshort k hk (hname ▸ hlength) with rfl | rfl
  · exact absurd (letters_injective (letters_if.trans hname)) (by omega)
  · exact absurd (isLower_of_mem_letters (c := '_') (n := n) (hname ▸ by decide)) (by decide)

namespace Ty

/-- **What a number is shown by is one word**, be it a name, a keyword or a numeral. -/
theorem Numbered.spells {x : String} (h : Numbered x) :
    Spells (displayName x) (words (displayName x).toList) := by
  obtain ⟨n, hn, rfl⟩ := h
  obtain ⟨w, hw⟩ : ∃ w, Spells (displayName (Text.Decimal.natural n)) [w] := by
    rw [displayName_natural hn]
    by_cases hlt : n < Supply.capacity
    · rw [if_pos hlt]
      exact ⟨_, .word (by simpa using isWord_letters hn)⟩
    · rw [if_neg hlt]
      exact ⟨_, spells_natural n⟩
  rwa [hw.scans.words.2]

/-! ## The words of a type -/

/-- Every node of the type is there. -/
def isWhole : Ty → Bool
  | .const _ | .var _ => true
  | .arrow a r => a.isWhole && r.isWhole
  | .app f a => f.isWhole && a.isWhole
  | .poly _ t => t.isWhole
  | .list t => t.isWhole
  | .missing => false

/-- The words of the names in a text, from left to right. -/
def nameWords (t : Ty) : List Word := t.names.flatMap fun x => words (displayName x).toList

theorem sublist_between {vs ws : List Word} (l r : Kind) (h : vs.Sublist ws) :
    vs.Sublist (between l r ws) :=
  (h.trans (List.sublist_append_left ws [.mark r])).cons _

theorem exists_spells_parenthesized {s : String} {vs : List Word} (wrap : Bool)
    (h : ∃ ws, Spells s ws ∧ vs.Sublist ws) :
    ∃ ws, Spells (parenthesized wrap s) ws ∧ vs.Sublist ws := by
  obtain ⟨ws, hs, hvs⟩ := h
  cases wrap with
  | false => exact ⟨ws, hs, hvs⟩
  | true => exact ⟨_, hs.parens, sublist_between _ _ hvs⟩

/-- **The text of a type has the words of its names.** -/
theorem exists_spells_print {t : Ty} (hwhole : t.isWhole)
    (hconst : ∀ c ∈ t.constants, c ∈ baseNames)
    (hnames : ∀ x ∈ t.names, Spells (displayName x) (words (displayName x).toList))
    (simple : Bool) : ∃ ws, Spells (t.print simple) ws ∧ t.nameWords.Sublist ws := by
  induction t generalizing simple with
  | const c =>
    have hbase : ∀ c ∈ baseNames, isWord c.toList := by decide
    exact ⟨_, .word (hbase c (hconst c (by simp [constants]))), List.nil_sublist _⟩
  | var x => exact ⟨_, hnames x (by simp [names]), by simp [nameWords, names]⟩
  | missing => cases hwhole
  | list t ih =>
    obtain ⟨ws, hs, hws⟩ := ih hwhole hconst hnames false
    exact ⟨_, hs.squares, sublist_between _ _ hws⟩
  | arrow a r iha ihr =>
    rw [isWhole, Bool.and_eq_true] at hwhole
    simp only [constants, names, List.forall_mem_append] at hconst hnames
    obtain ⟨vs, hvs, hleft⟩ := iha hwhole.1 hconst.1 hnames.1 a.isOpen
    obtain ⟨ws, hws, hright⟩ := ihr hwhole.2 hconst.2 hnames.2 false
    refine exists_spells_parenthesized simple ⟨_, hvs.join (k := .arrow) (by decide) hws, ?_⟩
    rw [nameWords, names, List.flatMap_append]
    exact hleft.append (hright.cons _)
  | app f a ihf iha =>
    rw [isWhole, Bool.and_eq_true] at hwhole
    simp only [constants, names, List.forall_mem_append] at hconst hnames
    obtain ⟨vs, hvs, hleft⟩ := ihf hwhole.1 hconst.1 hnames.1 f.isOpen
    obtain ⟨ws, hws, hright⟩ := iha hwhole.2 hconst.2 hnames.2 true
    have hs := hvs.append hws.blank (boundary_blank _)
    rw [← String.append_assoc] at hs
    refine exists_spells_parenthesized simple ⟨_, hs, ?_⟩
    rw [nameWords, names, List.flatMap_append]
    exact hleft.append hright
  | poly b t ih =>
    obtain ⟨hb, hnames⟩ := List.forall_mem_cons.1 hnames
    obtain ⟨ws, hws, hbody⟩ := ih hwhole hconst hnames false
    refine exists_spells_parenthesized simple ⟨_, hb.join (k := .dot) (by decide) hws, ?_⟩
    rw [nameWords, names, List.flatMap_cons]
    exact (List.Sublist.refl _).append (hbody.cons _)

/-- The words in which a type with these names is written. -/
def Admits (xs : List String) : Word → Prop
  | .ident x => x ∈ baseNames ∨ x ∈ xs
  | .mark k => k ∈ .kwTfn :: signs
  | .int _ | .string _ => False

theorem Admits.mono {xs ys : List String} (hsub : xs ⊆ ys) {v : Word} (h : Admits xs v) :
    Admits ys v := by
  cases v with
  | ident x => exact h.imp_right fun hx => hsub hx
  | mark | int | string => exact h

theorem admits_between {xs : List String} {l r : Kind} {w : List Word}
    (hl : l ∈ .kwTfn :: signs) (hr : r ∈ .kwTfn :: signs) (hw : ∀ v ∈ w, Admits xs v) :
    ∀ v ∈ between l r w, Admits xs v := by
  refine List.forall_mem_cons.2 ⟨hl, List.forall_mem_append.2 ⟨hw, ?_⟩⟩
  exact List.forall_mem_singleton.2 hr

/-- **A phrase has no other words** than signs, names of base types and names of its type. -/
theorem Phrase.admits {n : Nat} {w : List Word} {t : Ty} (h : Phrase n w t) :
    ∀ v ∈ w, Admits t.names v := by
  induction h with
  | base hx => exact List.forall_mem_singleton.2 (.inl hx)
  | var => exact List.forall_mem_singleton.2 (.inr (List.mem_singleton_self _))
  | paren _ ih | list _ ih => exact admits_between (by decide) (by decide) ih
  | app _ _ ihf iha =>
    refine List.forall_mem_append.2 ⟨fun v hv => ?_, fun v hv => ?_⟩
    · exact (ihf v hv).mono (List.subset_append_left _ _)
    · exact (iha v hv).mono (List.subset_append_right _ _)
  | arrow _ _ iha ihr =>
    have harrow : Kind.arrow ∈ .kwTfn :: signs := by decide
    refine List.forall_mem_append.2 ⟨fun v hv => ?_,
      List.forall_mem_cons.2 ⟨harrow, fun v hv => ?_⟩⟩
    · exact (iha v hv).mono (List.subset_append_left _ _)
    · exact (ihr v hv).mono (List.subset_append_right _ _)
  | dot _ ih =>
    have hdot : Kind.dot ∈ .kwTfn :: signs := by decide
    refine List.forall_mem_cons.2 ⟨.inr List.mem_cons_self, List.forall_mem_cons.2 ⟨hdot, ?_⟩⟩
    exact fun v hv => (ih v hv).mono (List.subset_cons_self _ _)
  | tfn _ ih =>
    have hmarks : Kind.kwTfn ∈ .kwTfn :: signs ∧ Kind.arrow ∈ .kwTfn :: signs := by decide
    refine List.forall_mem_cons.2 ⟨hmarks.1, List.forall_mem_cons.2 ⟨.inr List.mem_cons_self, ?_⟩⟩
    refine List.forall_mem_cons.2 ⟨hmarks.2, fun v hv => ?_⟩
    exact (ih v hv).mono (List.subset_cons_self _ _)
  | loosen _ ih => exact ih

/-! ## The names of a canonical form -/

theorem names_unbind (t : Ty) : t.unbind.1 ++ t.unbind.2.names = t.names := by
  rw [← names_bindAll, bindAll_unbind]

theorem mem_order {t : Ty} {x : String} : x ∈ t.order ↔ x ∈ t.names := by
  rw [order, Seen.mem_meetAll, List.mem_append, ← names_unbind t, List.mem_append,
    or_comm (a := x ∈ t.unbind.1), or_iff_right List.not_mem_nil]

theorem nodup_order (t : Ty) : t.order.Nodup := by
  obtain ⟨new, heq, hnodup, -⟩ := Seen.exists_meetAll [] (t.unbind.2.names ++ t.unbind.1)
  rwa [order, heq, List.nil_append]

/-- Names are counted by any row that has each of them once. -/
theorem length_eraseDups {xs ys : List String} (hnodup : ys.Nodup) (h : ∀ x, x ∈ xs ↔ x ∈ ys) :
    xs.eraseDups.length = ys.length := by
  refine List.Perm.length_eq
    ((List.perm_ext_iff_of_nodup (nodup_eraseDups xs) hnodup).2 fun x => ?_)
  rw [List.mem_eraseDups, h]

theorem mem_names_arranged {t : Ty} {x : String} : x ∈ t.arranged.names ↔ x ∈ t.names := by
  rw [arranged, names_bindAll, List.mem_append, List.mem_filter, mem_order, ← names_unbind t,
    List.mem_append, decide_eq_true_iff]
  tauto

/-- **The names of a canonical form are the numbers up to the count of names.** -/
theorem mem_names_canonical {t : Ty} {x : String} :
    x ∈ t.canonical.names ↔
      ∃ n, n < t.names.eraseDups.length ∧ x = Text.Decimal.natural (n + 1) := by
  rw [canonical_eq, names_mapNames, List.mem_map,
    length_eraseDups t.nodup_order fun x => mem_order.symm]
  constructor
  · rintro ⟨y, hy, rfl⟩
    exact ⟨_, List.idxOf_lt_length_of_mem (mem_order_of_arranged hy), rfl⟩
  · rintro ⟨n, hn, rfl⟩
    refine ⟨t.order[n], mem_names_arranged.2 (mem_order.1 (List.getElem_mem hn)), ?_⟩
    rw [Seen.number, t.nodup_order.idxOf_getElem]

theorem mem_names_of_free {t : Ty} {x : String} (h : x ∈ t.freeOccurrences) : x ∈ t.names := by
  induction t with
  | const | missing => simp [freeOccurrences] at h
  | var y => exact h
  | arrow a r iha ihr =>
    rw [freeOccurrences, List.mem_append] at h
    exact List.mem_append.2 (h.imp iha ihr)
  | app f a ihf iha =>
    rw [freeOccurrences, List.mem_append] at h
    exact List.mem_append.2 (h.imp ihf iha)
  | poly b t ih => exact List.mem_cons_of_mem _ (ih (List.mem_filter.1 h).1)
  | list t ih => exact ih h

/-- Binding the free variables brings in no name. -/
theorem length_names_quantify (t : Ty) :
    t.quantify.names.eraseDups.length = t.names.eraseDups.length := by
  refine length_eraseDups (nodup_eraseDups _) fun x => ?_
  rw [List.mem_eraseDups, quantify, names_bindAll, List.mem_append, freeVars, List.mem_eraseDups]
  exact ⟨Or.rec mem_names_of_free id, .inr⟩

/-! ## What is shown -/

theorem isWhole_mapNames (f : String → String) (t : Ty) :
    (t.mapNames f).isWhole = t.isWhole := by
  induction t <;> simp_all [mapNames, isWhole]

theorem isWhole_bindAll (xs : List String) (t : Ty) : (bindAll xs t).isWhole = t.isWhole := by
  induction xs with
  | nil => rfl
  | cons x xs ih => exact ih

theorem isWhole_quantify_canonical (t : Ty) : t.quantify.canonical.isWhole = t.isWhole := by
  rw [canonical_eq, isWhole_mapNames, arranged, isWhole_bindAll,
    ← isWhole_bindAll t.quantify.unbind.1, bindAll_unbind, quantify, isWhole_bindAll]

theorem shown_eq {t : Ty} (h : t.isWhole) : t.shown = t.mapNames displayName := by
  induction t with
  | const | var => rfl
  | missing => cases h
  | arrow a r iha ihr =>
    rw [isWhole, Bool.and_eq_true] at h
    rw [shown, mapNames, iha h.1, ihr h.2]
  | app f a ihf iha =>
    rw [isWhole, Bool.and_eq_true] at h
    rw [shown, mapNames, ihf h.1, iha h.2]
  | poly b t ih => rw [shown, mapNames, ih h]
  | list t ih => rw [shown, mapNames, ih h]

/-- A name may be replaced by one that is shown alike. -/
theorem print_mapNames {f : String → String} {t : Ty}
    (hf : ∀ x ∈ t.names, displayName (f x) = displayName x) (simple : Bool) :
    (t.mapNames f).print simple = t.print simple := by
  have hopen (u : Ty) : (u.mapNames f).isOpen = u.isOpen := by cases u <;> rfl
  induction t generalizing simple with
  | const | missing => rfl
  | var x => exact hf x (by simp [names])
  | arrow a r iha ihr =>
    simp only [names, List.forall_mem_append] at hf
    rw [mapNames, print, print, hopen, iha hf.1, ihr hf.2]
  | app g a ihg iha =>
    simp only [names, List.forall_mem_append] at hf
    rw [mapNames, print, print, hopen, ihg hf.1, iha hf.2]
  | poly b t ih =>
    obtain ⟨hb, hf⟩ := List.forall_mem_cons.1 hf
    rw [mapNames, print, print, hb, ih hf]
  | list t ih => rw [mapNames, print, print, ih hf]

theorem mem_freeOccurrences_arranged {t : Ty} {x : String} :
    x ∈ t.arranged.freeOccurrences ↔ x ∈ t.freeOccurrences := by
  have horder (hx : x ∈ t.unbind.1) : x ∈ t.order :=
    mem_order.2 (names_unbind t ▸ List.mem_append_left _ hx)
  have hbound : x ∈ t.freeOccurrences ↔ x ∈ t.unbind.2.freeOccurrences ∧ x ∉ t.unbind.1 := by
    rw [← mem_freeOccurrences_bindAll, bindAll_unbind]
  rw [arranged, mem_freeOccurrences_bindAll, hbound, List.mem_filter, decide_eq_true_iff,
    and_iff_right_of_imp horder]

theorem quantify_of_closed {t : Ty} (h : ∀ x, x ∉ t.freeOccurrences) : t.quantify = t := by
  rw [quantify, freeVars, List.eq_nil_iff_forall_not_mem.2 h]
  rfl

theorem notMem_free_quantify (t : Ty) (x : String) : x ∉ t.quantify.freeOccurrences := by
  rw [quantify, mem_freeOccurrences_bindAll, freeVars, List.mem_eraseDups]
  exact fun h => h.2 h.1

/-- **What is shown is displayed in the same way.** -/
theorem display_shown {t : Ty} (hwhole : t.isWhole) :
    t.quantify.canonical.shown.display = t.display := by
  have hinj : Set.InjOn displayName {x | x ∈ t.quantify.canonical.names} :=
    fun x hx y hy hxy => (numbered_canonical hx).eq_of_displayName (numbered_canonical hy) hxy
  obtain ⟨π, hπ⟩ := exists_permute_of_injOn hinj
  obtain ⟨ρ, hρ⟩ := exists_permute_of_injOn t.quantify.number_injOn_arranged
  have hclosed : t.quantify.arranged.quantify = t.quantify.arranged :=
    quantify_of_closed fun x hx => t.notMem_free_quantify x (mem_freeOccurrences_arranged.1 hx)
  rw [shown_eq (by rwa [isWhole_quantify_canonical]), hπ, display_permute, canonical_eq, hρ,
    display_permute, display, hclosed, canonical_arranged, display]

/-! ## Reading -/

/-- Where all letters are names, what is displayed is read as what is shown. -/
theorem parse_display {t : Ty} (hwhole : t.isWhole) (hconst : ∀ c ∈ t.constants, c ∈ baseNames)
    (hfew : t.names.eraseDups.length < 240) :
    parse t.display.toList = .ok t.quantify.canonical.shown := by
  have hnamed : ∀ x ∈ t.quantify.canonical.names, Named (displayName x) := by
    intro x hx
    obtain ⟨n, hn, rfl⟩ := mem_names_canonical.1 hx
    rw [length_names_quantify] at hn
    exact named_displayName (Nat.succ_pos n) (by omega)
  have hshown := shown_eq (t := t.quantify.canonical) (by rwa [isWhole_quantify_canonical])
  have hbase : ∀ x ∈ baseNames, isWord x.toList ∧ Kind.ofWord x = .ident := by decide
  obtain ⟨ws, hws, hphrase⟩ := (phrase_display hconst).prints fun x hx => by
    rcases (phrase_display hconst).admits _ hx with hx | hx
    · exact hbase x hx
    · rw [hshown, names_mapNames] at hx
      obtain ⟨y, hy, rfl⟩ := List.mem_map.1 hx
      exact hnamed y hy
  have htext : t.quantify.canonical.shown.print false = t.display := by
    rw [hshown]
    exact print_mapNames (fun x hx => displayName_of_named (hnamed x hx)) false
  rw [htext] at hws
  obtain ⟨hfault, hwords⟩ := hws.scans.words
  exact parse_eq_ok.2 ⟨hfault, hwords ▸ hphrase.mono (level_le _)⟩

/-- The name with the number 240 is displayed as a word that no type has. -/
theorem parse_display_keyword {t : Ty} (hwhole : t.isWhole)
    (hconst : ∀ c ∈ t.constants, c ∈ baseNames) (hmany : 240 ≤ t.names.eraseDups.length) :
    ∃ e, parse t.display.toList = .error e := by
  obtain ⟨ws, hws, hsub⟩ := exists_spells_print (t := t.quantify.canonical)
    (by rwa [isWhole_quantify_canonical]) (by rwa [constants_quantify_canonical])
    (fun x hx => (numbered_canonical hx).spells) false
  have hif : .mark .kwIf ∈ ws := by
    refine hsub.subset (List.mem_flatMap.2 ⟨Text.Decimal.natural 240, ?_, ?_⟩)
    · exact mem_names_canonical.2 ⟨239, by rwa [length_names_quantify], rfl⟩
    · rw [displayName_if, (Spells.keyword (k := .kwIf) (by decide)).scans.words.2]
      exact List.mem_singleton_self _
  cases hparse : parse t.display.toList with
  | error e => exact ⟨e, rfl⟩
  | ok u =>
    obtain ⟨-, hphrase⟩ := parse_eq_ok.1 hparse
    have hwords : words t.display.toList = ws := hws.scans.words.2
    have hmark : Kind.kwIf ∈ .kwTfn :: signs := hphrase.admits (.mark .kwIf) (hwords ▸ hif)
    exact absurd hmark (by decide)

/-- **What is displayed is read back** as long as there are fewer than 240 names: the text is
the text of a type, which is displayed in the same way.  With 240 names or more it is no
text of a type. -/
theorem display_reads_back (t : Ty) (hwhole : t.isWhole)
    (hconst : ∀ c ∈ t.constants, c ∈ baseNames) :
    (t.names.eraseDups.length < 240 →
        ∃ u, parse t.display.toList = .ok u ∧ u.display = t.display) ∧
      (240 ≤ t.names.eraseDups.length → ∃ e, parse t.display.toList = .error e) :=
  ⟨fun hfew => ⟨_, parse_display hwhole hconst hfew, display_shown hwhole⟩,
    parse_display_keyword hwhole hconst⟩

/-- Free and bound names, one of them a keyword. -/
theorem display_reads_back_bound :
    let t : Ty := .arrow (.app (.var "f") (.var "if")) (.poly "x" (.list (.arrow .int (.var "x"))))
    t.display = "a . b . a b -> c . [Int -> c]" ∧
      ∃ u, parse t.display.toList = .ok u ∧ u.display = t.display := by
  intro t
  exact ⟨by cbv, (display_reads_back t (by decide) (by decide)).1 (by decide)⟩

/-- A function of 240 arguments with a variable for the type of each. -/
theorem display_not_read_back :
    let xs := (List.range' 1 240).map Text.Decimal.natural
    let t : Ty := xs.foldr (fun x t => .arrow (.var x) t) .int
    t.isWhole ∧ (∀ c ∈ t.constants, c ∈ baseNames) ∧
      ¬∃ u, parse t.display.toList = .ok u ∧ u.display = t.display := by
  intro xs t
  have hshape (xs : List String) :
      let u := xs.foldr (fun x t => Ty.arrow (.var x) t) .int
      u.isWhole ∧ u.constants = ["Int"] ∧ u.names = xs := by
    induction xs with
    | nil => exact ⟨rfl, rfl, rfl⟩
    | cons x xs ih => exact ⟨ih.1, ih.2.1, congrArg (x :: ·) ih.2.2⟩
  obtain ⟨hwhole, hconstants, hnames⟩ : t.isWhole ∧ t.constants = ["Int"] ∧ t.names = xs :=
    hshape xs
  have hconst : ∀ c ∈ t.constants, c ∈ baseNames := by
    rw [hconstants]
    decide
  have hnodup : xs.Nodup := List.Nodup.map (fun _ _ => natural_injective) (List.nodup_range' 1)
  have hmany : 240 ≤ t.names.eraseDups.length := by
    rw [length_eraseDups hnodup (by simp [hnames])]
    simp [xs]
  obtain ⟨e, he⟩ := parse_display_keyword hwhole hconst hmany
  refine ⟨hwhole, hconst, ?_⟩
  rintro ⟨u, hu, -⟩
  rw [he] at hu
  cases hu

end Ty

end LetPoly
