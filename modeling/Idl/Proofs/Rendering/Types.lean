import Idl.Proofs.Rendering.Names

/-!
# Types and values as text

The arguments of a type stand between the first word of its name and the rest,
so a name is split there first.
-/

namespace Idl.Grammar

/-! ## The words of a type name -/

def BaseBehind (first base : String) : Phrase := fun a c =>
  ∃ signed b, Signed first signed a b ∧ Lengthened signed base b c

/-- A type name behind its first word, as text. -/
structure SplitBase (base first tail : String) : Prop where
  ident : IsIdent first
  text : base = first ++ tail
  stop : tail = "" ∨ Breaks tail.toList
  less : ∀ rest, Breaks rest → Without .less rest →
    Without .less (put tail rest)
  written : ∀ rest, Breaks rest → (IsLong base → WithoutWord "long" rest) →
    Written (BaseBehind first base) (put tail rest) rest

theorem isIdent_unsigned : IsIdent "unsigned" := by decide

theorem isIdent_long : IsIdent "long" := by decide

section
variable {w base : String} {rest : List Char}

theorem written_short (h : IsLong base → WithoutWord "long" rest) :
    Written (Lengthened base base) rest rest :=
  written_empty fun start ts hts => .short fun hlong => h hlong start ts hts

theorem written_behindBlank (hw : IsIdent w) (hrest : Breaks rest) :
    Written (Word w) (put (" " ++ w) rest) rest := by
  have htext : put (" " ++ w) rest = ' ' :: put w rest := by
    rw [put_append]
    rfl
  rw [htext]
  exact (written_word hw hrest).blank

theorem without_behindBlank (hw : IsIdent w) (hrest : Breaks rest) :
    Without .less (put (" " ++ w) rest) := by
  have htext : put (" " ++ w) rest = ' ' :: put w rest := by
    rw [put_append]
    rfl
  rw [htext]
  exact (opens_word hw hrest).blank.without (by decide) (by decide)

theorem splitBase_word (hw : IsIdent w) (hunsigned : w ≠ "unsigned") :
    SplitBase w w "" where
  ident := hw
  text := by simp
  stop := .inl rfl
  less _ _ hless := hless
  written rest _ hlong := by
    have hwritten := written_short hlong
    apply hwritten.imp
    intro a c h
    exact ⟨w, a, .plain hunsigned, h⟩

theorem splitBase_unsigned (hw : IsIdent w) :
    SplitBase ("unsigned " ++ w) "unsigned" (" " ++ w) where
  ident := isIdent_unsigned
  text := by rw [← String.append_assoc]; rfl
  stop := by
    refine .inr ?_
    rw [String.toList_append]
    rfl
  less _ hrest _ := without_behindBlank hw hrest
  written rest hrest hlong := by
    have hwritten := (written_behindBlank hw hrest).seq (written_short hlong)
    apply hwritten.imp
    intro a c hparts
    rcases hparts with ⟨b, hb, hc⟩
    exact ⟨_, b, .unsigned hb, hc⟩

theorem put_blankLong (rest : List Char) :
    put " long" rest = put (" " ++ "long") rest := by
  have htext : " long" = " " ++ "long" := by decide
  rw [← htext]

theorem splitBase_longLong : SplitBase "long long" "long" " long" where
  ident := isIdent_long
  text := by decide
  stop := .inr rfl
  less rest hrest _ := by
    rw [put_blankLong]
    exact without_behindBlank isIdent_long hrest
  written rest hrest _ := by
    rw [put_blankLong]
    have hwritten := written_behindBlank isIdent_long hrest
    apply hwritten.imp
    intro a c h
    exact ⟨"long", a, .plain (by decide), .long (.inl rfl) h⟩

theorem put_longLong (rest : List Char) :
    put " long long" rest = put (" " ++ "long") (put (" " ++ "long") rest) := by
  have htext : " long long" = " " ++ "long" ++ (" " ++ "long") := by decide
  rw [htext, put_append]

theorem breaks_blankLong (rest : List Char) :
    Breaks (put (" " ++ "long") rest) := by
  rw [put_append]
  rfl

theorem splitBase_unsignedLongLong :
    SplitBase "unsigned long long" "unsigned" " long long" where
  ident := isIdent_unsigned
  text := by decide
  stop := .inr rfl
  less rest _ _ := by
    rw [put_longLong]
    exact without_behindBlank isIdent_long (breaks_blankLong rest)
  written rest hrest _ := by
    rw [put_longLong]
    have hwritten :=
        (written_behindBlank isIdent_long (breaks_blankLong rest)).seq
        (written_behindBlank isIdent_long hrest)
    apply hwritten.imp
    intro a c hparts
    rcases hparts with ⟨b, hb, hc⟩
    exact ⟨"unsigned long", b, .unsigned hb, .long (.inr rfl) hc⟩

theorem exists_splitBase (h : IsTypeBase base) :
    ∃ first tail, SplitBase base first tail := by
  cases h with
  | word hw hunsigned => exact ⟨_, _, splitBase_word hw hunsigned⟩
  | unsigned hw => exact ⟨_, _, splitBase_unsigned hw⟩
  | longLong => exact ⟨_, _, splitBase_longLong⟩
  | unsignedLongLong => exact ⟨_, _, splitBase_unsignedLongLong⟩

/-! ## Type names -/

theorem segmentsText_append (segments : List String) (cs rest : List Char) :
    segmentsText segments cs ++ rest = segmentsText segments (cs ++ rest) := by
  induction segments with
  | nil => rfl
  | cons s segments ih =>
      have hput : put s (segmentsText segments cs) ++ rest =
          put s (segmentsText segments (cs ++ rest)) := by
        rw [put, List.append_assoc, ih]
        rfl
      exact congrArg (fun text => ':' :: ':' :: text) hput

/-- Behind a base without segments stands what stands behind the type. -/
theorem withoutLong_segmentsText {segments : List String}
    (h : IsLong (qualified base segments) → WithoutWord "long" rest)
    (hlong : IsLong base) :
    WithoutWord "long" (segmentsText segments rest) := by
  cases segments with
  | nil => exact h hlong
  | cons s segments =>
      have hopens : Opens .namespaces ""
          (segmentsText (s :: segments) rest) := opens_mark rfl
      exact hopens.withoutWord (by decide) (.inl (by decide))

theorem withoutLess_segmentsText {type : String} {segments : List String}
    (h : BehindType type rest) :
    Without .less (segmentsText segments rest) := by
  cases segments with
  | nil => exact h.less
  | cons s segments =>
      have hopens : Opens .namespaces ""
          (segmentsText (s :: segments) rest) := opens_mark rfl
      exact hopens.without (by decide) (by decide)

/-- The name of a type, split behind its first word. -/
structure SplitName (name first : String) : Prop where
  ident : IsIdent first
  front : name.toList.takeWhile isWordChar = first.toList
  breaks : ∀ rest, BehindType name rest →
    Breaks (name.toList.dropWhile isWordChar ++ rest)
  less : ∀ rest, BehindType name rest →
    Without .less (name.toList.dropWhile isWordChar ++ rest)
  written : ∀ rest, BehindType name rest →
    Written (TypeName first name)
      (name.toList.dropWhile isWordChar ++ rest) rest

theorem put_empty (rest : List Char) : put "" rest = rest := by
  simp [put]

theorem breaks_put {tail : String} (h : Breaks tail.toList) :
    Breaks (put tail rest) := by
  rw [put]
  cases hlist : tail.toList with
  | nil =>
      rw [hlist] at h
      exact h.elim
  | cons c cs =>
      rw [hlist] at h
      exact h

theorem exists_splitName {name : String} (h : IsTypeName name) :
    ∃ first, SplitName name first := by
  rcases h with ⟨base, segments, hbase, hmore, rfl⟩
  obtain ⟨first, tail, hsplit⟩ := exists_splitBase hbase
  have htext : (qualified base segments).toList =
      put first (put tail (segmentsText segments [])) := by
    rw [← put_append, ← hsplit.text, ← put_qualified, put, List.append_nil]
  have hstop : put tail (segmentsText segments []) = [] ∨
      Breaks (put tail (segmentsText segments [])) := by
    rcases hsplit.stop with rfl | hbreaks
    · rw [put_empty]
      cases segments with
      | nil => exact .inl rfl
      | cons => exact .inr rfl
    · exact .inr (breaks_put hbreaks)
  have hbehind : ∀ rest, (qualified base segments).toList.dropWhile isWordChar ++
      rest = put tail (segmentsText segments rest) := by
    intro rest
    rw [htext, (takeWhile_put hsplit.ident hstop).2, put, put,
      List.append_assoc, segmentsText_append, List.nil_append]
  refine ⟨first, hsplit.ident, ?_, fun rest h => ?_, fun rest h => ?_,
    fun rest h => ?_⟩
  · rw [htext, (takeWhile_put hsplit.ident hstop).1]
  · rw [hbehind]
    rcases hsplit.stop with rfl | hbreaks
    · rw [put_empty]
      exact breaks_segmentsText segments h.breaks
    · exact breaks_put hbreaks
  · rw [hbehind]
    exact hsplit.less _ (breaks_segmentsText segments h.breaks)
      (withoutLess_segmentsText h)
  · have hwords := hsplit.written _
      (breaks_segmentsText segments h.breaks)
      (withoutLong_segmentsText h.long)
    have hsegments := written_segments hmore h.breaks h.namespaces
    rw [hbehind]
    have hwritten := hwords.seq hsegments
    apply hwritten.imp
    intro a d hparts
    rcases hparts with ⟨c, ⟨signed, b, hsigned, hlengthened⟩, hd⟩
    exact .intro hsigned hlengthened hd

end

/-! ## Types -/

def WrittenType (t : TypeRef) : Prop :=
  ∀ rest, BehindType t.name rest → Written (Typed t) (t.write rest) rest

section
variable {t : TypeRef} {ts : List TypeRef} {rest : List Char}

theorem written_arguments (h : ∀ u ∈ t :: ts, WrittenType u)
    (rest : List Char) :
    Written (Arguments (t :: ts)) (t.write (TypeRef.writeMore ts rest)) rest := by
  induction ts generalizing t with
  | nil =>
      have hclose : Written (Mark .greater) ('>' :: rest) rest :=
        written_mark rfl
      have hdelimited : Delimited ('>' :: rest) :=
        delimited_mark rfl rfl (by decide)
      have htype := h t List.mem_cons_self _ (hdelimited.behindType t.name)
      rw [TypeRef.writeMore]
      have hwritten := htype.seq hclose
      apply hwritten.imp
      intro a c hparts
      rcases hparts with ⟨b, hb, hc⟩
      exact .last hb hc
  | cons u us ih =>
      have hmore := ih fun v hv => h v (List.mem_cons_of_mem t hv)
      have hcomma : Written (Mark .comma)
          (',' :: ' ' :: u.write (TypeRef.writeMore us rest))
          (' ' :: u.write (TypeRef.writeMore us rest)) := written_mark rfl
      have hdelimited : Delimited
          (',' :: ' ' :: u.write (TypeRef.writeMore us rest)) :=
        delimited_mark rfl rfl (by decide)
      have htype := h t List.mem_cons_self _ (hdelimited.behindType t.name)
      rw [TypeRef.writeMore]
      have hwritten := htype.seq (hcomma.seq hmore.blank)
      apply hwritten.imp
      intro a d hparts
      rcases hparts with ⟨b, hb, c, hc, hd⟩
      exact .more hb hc hd

theorem written_typed (h : IsPlain t) : WrittenType t := by
  induction h with
  | @intro name arguments hname _ ih =>
      intro rest hrest
      obtain ⟨first, hsplit⟩ := exists_splitName hname
      have hbreaks := hsplit.breaks rest hrest
      have hless := written_without (hsplit.less rest hrest)
      have hrestName := hsplit.written rest hrest
      cases arguments with
      | nil =>
          have hfirst := written_word hsplit.ident hbreaks
          rw [TypeRef.write, TypeRef.writeBracketed, hsplit.front]
          have hwritten := hfirst.seq (hless.seq hrestName)
          apply hwritten.imp
          intro a d hparts
          rcases hparts with ⟨b, hb, _, ⟨rfl, hnext⟩, hd⟩
          exact .plain hb hnext hd
      | cons u us =>
          have harguments := written_arguments ih
            (name.toList.dropWhile isWordChar ++ rest)
          have hopen : Written (Mark .less)
              ('<' :: u.write (TypeRef.writeMore us
                (name.toList.dropWhile isWordChar ++ rest)))
              (u.write (TypeRef.writeMore us
                (name.toList.dropWhile isWordChar ++ rest))) :=
            written_mark rfl
          have hfirst : Written (Word first)
              (first.toList ++ '<' :: u.write (TypeRef.writeMore us
                (name.toList.dropWhile isWordChar ++ rest)))
              ('<' :: u.write (TypeRef.writeMore us
                (name.toList.dropWhile isWordChar ++ rest))) :=
            written_word hsplit.ident rfl
          rw [TypeRef.write, TypeRef.writeBracketed, hsplit.front]
          have hwritten := hfirst.seq (hopen.seq (harguments.seq hrestName))
          apply hwritten.imp
          intro a e hparts
          rcases hparts with ⟨b, hb, c, hc, d, hd, he⟩
          exact .template hb hc hd he

theorem write_withoutSize (t : TypeRef) (rest : List Char) :
    TypeRef.write { t with quantity := none } rest = t.write rest := by
  rcases t with ⟨name, size, arguments⟩
  rw [TypeRef.write, TypeRef.write]

theorem written_declares {type : TypeRef} {name : String}
    (h : Declares type name) (hrest : Delimited rest) :
    Written (fun a c => ∃ b, Typed { type with quantity := none } a b ∧
        Declared ⟨name, type.quantity⟩ b c)
      (type.write (' ' :: writeDeclared name type rest)) rest := by
  have hname : Written (Declared ⟨name, type.quantity⟩)
      (' ' :: writeDeclared name type rest) rest :=
    (written_declared h.path h.size hrest.behindName).blank
  have hseparate : Separate type (Declarator.text ⟨name, type.quantity⟩) := by
    intro hlong
    rw [firstSegment_declarator h.path]
    exact h.separate hlong
  have hbehind : BehindType type.name (' ' :: writeDeclared name type rest) :=
    behindType_declared h.path hseparate hrest.behindName
  have htype := written_typed h.plain _ hbehind
  rw [write_withoutSize] at htype
  exact htype.seq hname

/-! ## Values -/

theorem valueRun_empty (h : Without .identifier rest)
    (hliteral : Without .literal rest) (hless : Without .less rest) :
    Written (ValueRun "") rest rest :=
  written_empty fun start ts hts =>
    .nil (h start ts hts) (hliteral start ts hts) (hless start ts hts)

theorem written_quotedValue {v : String} {body : List Char}
    (htext : v.toList = '"' :: (body ++ ['"'])) (hbody : '"' ∉ body)
    (hend : Written (ValueRun "") rest rest) :
    Written (Value v) (writeValue v rest) rest := by
  have hhead : v.toList.head? = some '"' := by rw [htext, List.head?_cons]
  have hwrite : writeValue v rest = '"' :: (body ++ '"' :: rest) := by
    rw [writeValue, if_pos hhead, put, htext, List.cons_append,
      List.append_assoc]
    rfl
  have hvalue : v = "\"" ++ (String.ofList body ++ "") ++ "\"" := by
    rw [← String.toList_inj, htext]
    simp
  rw [hwrite]
  have hwritten := (written_literal hbody).seq hend
  apply hwritten.imp
  intro a c hparts
  rcases hparts with ⟨b, hb, hc⟩
  rw [hvalue]
  exact .literal hb hc

theorem written_firstWord {v : String} {tail : List Char}
    (hword : IsIdent (String.ofList (v.toList.takeWhile isWordChar)))
    (htail : Breaks tail) :
    Written (Word (String.ofList (v.toList.takeWhile isWordChar)))
      (v.toList.takeWhile isWordChar ++ tail) tail := by
  have hwritten := written_word hword htail
  rwa [put, String.toList_ofList] at hwritten

/-- Behind its first word a value is written as a literal. -/
theorem written_plainValue {v : String} {c : Char} {cs : List Char}
    (htext : v.toList = c :: cs) (hc : isWordChar c = true) (hcs : '"' ∉ cs)
    (hbreaks : Breaks rest) (hend : Written (ValueRun "") rest rest) :
    Written (Value v) (writeValue v rest) rest := by
  have hquote : c ≠ '"' := by
    rintro rfl
    exact absurd hc (by decide)
  have hhead : ¬ v.toList.head? = some '"' := by simp [htext, hquote]
  have hclean : '"' ∉ v.toList := by simp [htext, hquote.symm, hcs]
  have hword : IsIdent (String.ofList (v.toList.takeWhile isWordChar)) := by
    constructor
    · rw [htext, List.takeWhile_cons_of_pos hc]
      simp
    · intro d hd
      rw [String.toList_ofList] at hd
      exact List.all_eq_true.mp List.all_takeWhile d hd
  have hvalue : v = String.ofList (v.toList.takeWhile isWordChar) ++
      String.ofList (v.toList.dropWhile isWordChar) := by
    rw [← String.ofList_append, List.takeWhile_append_dropWhile,
      String.ofList_toList]
  rw [writeValue, if_neg hhead]
  cases htail : v.toList.dropWhile isWordChar with
  | nil =>
      have hwritten := (written_firstWord hword hbreaks).seq hend
      apply hwritten.imp
      intro a c hparts
      rcases hparts with ⟨b, hb, hc⟩
      rw [htail] at hvalue
      rw [hvalue]
      exact .word hb hc
  | cons d ds =>
      have hbody : '"' ∉ d :: ds := by
        intro hmem
        rw [← htail] at hmem
        exact hclean ((List.dropWhile_suffix _).subset hmem)
      have hblank : Breaks (' ' :: '"' :: (d :: ds ++ '"' :: rest)) := rfl
      have hliteral : Written (Literal (String.ofList (d :: ds)))
          (' ' :: '"' :: (d :: ds ++ '"' :: rest)) rest :=
        (written_literal hbody).blank
      have hwritten := (written_firstWord hword hblank).seq (hliteral.seq hend)
      apply hwritten.imp
      intro a e hparts
      rcases hparts with ⟨b, hb, c, hc, he⟩
      have hrun := Value.word hb (.literal hc he)
      rwa [String.append_empty, ← htail, ← hvalue] at hrun

theorem written_value {v : String} (hv : IsValue v) :
    Written (Value v) (writeValue v (';' :: rest)) (';' :: rest) := by
  have hopens : Opens .semicolon "" (';' :: rest) := opens_mark rfl
  have hend := valueRun_empty (hopens.without (by decide) (by decide))
    (hopens.without (by decide) (by decide))
    (hopens.without (by decide) (by decide))
  cases hv with
  | quoted htext hbody => exact written_quotedValue htext hbody hend
  | plain htext hc hcs => exact written_plainValue htext hc hcs rfl hend

end

end Idl.Grammar
