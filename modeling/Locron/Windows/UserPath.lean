import Locron.Windows.Protocol

set_option autoImplicit false

/-! # The PATH of an account

The plans that insert the installation directory into the persistent PATH of an account and take it
out again, over the spellings of local paths:

* `localPath_idem`: when a canonical spelling is canonical;
* `undone_exactly`: a planned insertion can be undone, and its undoing overwrites nothing else;
* `normalization_iff`: which directories are normalized once and for all, and so are inserted once.
-/

namespace Locron.Windows

open Except (ensure forEach)

/-! ## Spellings of local paths -/

theorem trimEnd_cons (c : Char) (path : Chars) :
    trimEnd (c :: path) = if trimEnd path = [] then trimEnd [c] else c :: trimEnd path := by
  unfold trimEnd List.rdropWhile
  rw [List.reverse_cons, List.dropWhile_append]
  cases path.reverse.dropWhile (· == '\\') with
  | nil => simp
  | cons d rest => simp

/-- Below the root of a drive the separators at the end go; at the root they all do. -/
theorem trimEnd_root (drive : Char) (rest : Chars) :
    trimEnd (drive :: ':' :: '\\' :: rest)
      = if trimEnd rest = [] then [drive, ':'] else drive :: ':' :: '\\' :: trimEnd rest := by
  have hbackslash : trimEnd ['\\'] = [] := by decide
  have hcolon : trimEnd [':'] = [':'] := by decide
  rw [trimEnd_cons drive, trimEnd_cons ':', trimEnd_cons '\\', hbackslash, hcolon]
  split_ifs <;> simp_all

/-- The components left after trimming are components of the path. -/
theorem splitOn_trimEnd_subset (rest : Chars) :
    (trimEnd rest).splitOn '\\' ⊆ rest.splitOn '\\' := by
  induction rest using List.reverseRecOn with
  | nil => exact List.Subset.refl _
  | append_singleton rest c ih =>
    unfold trimEnd at ih ⊢
    by_cases hc : (c == '\\') = true
    · have hsplit : (rest ++ [c]).splitOn '\\' = rest.splitOn '\\' ++ [[]] :=
        List.splitOnP_append_cons (p := (· == '\\')) rest [] hc
      rw [List.rdropWhile_concat_pos (· == '\\') _ _ hc, hsplit]
      exact List.Subset.trans ih (List.subset_append_left _ _)
    · rw [List.rdropWhile_concat_neg (· == '\\') _ _ hc]
      exact List.Subset.refl _

def ordinary (path : Chars) : Chars := (verbatim.isPrefixOf? path).getD path

/-- Both checks of a component. -/
def GoodComponent (component : Chars) : Prop :=
  plainComponent component = true ∧ reservedComponent component = false

def GoodTail (tail : Chars) : Prop :=
  ':' ∉ tail ∧ (∀ c ∈ tail, isControl c = false) ∧
    ∀ component ∈ (tail.map backslash).splitOn '\\', GoodComponent component

theorem localPath_eq_ok {path result : Chars} :
    localPath path = .ok result ↔ ∃ drive separator tail,
      ordinary path = drive :: ':' :: separator :: tail ∧ drive.isAlpha = true ∧
      (separator = '\\' ∨ separator = '/') ∧ GoodTail tail ∧
      result = if tail = [] then [drive, ':', '\\']
        else trimEnd (drive :: ':' :: '\\' :: tail.map backslash) := by
  unfold localPath ordinary
  constructor
  · intro h
    split at h
    · next drive mark separator tail hpath =>
      obtain ⟨hshape, hrest⟩ := Except.then_eq_ok.mp h
      obtain ⟨hall, hresult⟩ := Except.then_eq_ok.mp hrest
      obtain ⟨halpha, rfl, hsep, hcolon, hcontrol⟩ := Except.ensure_eq_ok.mp hshape
      refine ⟨drive, separator, tail, hpath, halpha, hsep, ⟨hcolon, hcontrol, ?_⟩, ?_⟩
      · intro component hmem
        obtain ⟨hplain, hreserved⟩ :=
          Except.then_eq_ok.mp (Except.forEach_eq_ok.mp hall component hmem)
        exact ⟨Except.ensure_eq_ok.mp hplain, Except.ensure_eq_ok.mp hreserved⟩
      · simp only [List.map_eq_nil_iff] at hresult
        split_ifs at hresult ⊢ <;> exact (Except.ok.inj hresult).symm
    · cases h
  · rintro ⟨drive, separator, tail, hpath, halpha, hsep, ⟨hcolon, hcontrol, hgood⟩, rfl⟩
    rw [hpath]
    refine Except.then_eq_ok.mpr ⟨Except.ensure_eq_ok.mpr ⟨halpha, rfl, hsep, hcolon, hcontrol⟩,
      Except.then_eq_ok.mpr ⟨Except.forEach_eq_ok.mpr fun component hmem => ?_, ?_⟩⟩
    · exact Except.then_eq_ok.mpr ⟨Except.ensure_eq_ok.mpr (hgood component hmem).1,
        Except.ensure_eq_ok.mpr (hgood component hmem).2⟩
    · simp only [List.map_eq_nil_iff]
      split_ifs <;> rfl

/-- A drive followed by separators only, more than one of them. -/
def RootOnly (path : Chars) : Prop :=
  ∃ drive separators, ordinary path = drive :: ':' :: separators ∧ drive.isAlpha = true ∧
    2 ≤ separators.length ∧ ∀ c ∈ separators, c = '\\' ∨ c = '/'

theorem backslash_eq {c : Char} : backslash c = '\\' ↔ c = '\\' ∨ c = '/' := by
  unfold backslash
  split_ifs with h
  · simp [h]
  · simp [h]

theorem backslash_backslash (c : Char) : backslash (backslash c) = backslash c := by
  by_cases h : c = '/'
  · subst h
    rfl
  · simp [backslash, h]

theorem trimEnd_map_eq_nil {tail : Chars} :
    trimEnd (tail.map backslash) = [] ↔ ∀ c ∈ tail, c = '\\' ∨ c = '/' := by
  unfold trimEnd
  rw [List.rdropWhile_eq_nil_iff, List.forall_mem_map]
  simp only [beq_iff_eq, backslash_eq]

/-- Trimming keeps a good tail good, and leaves no other separator in it. -/
theorem GoodTail.trimEnd {tail : Chars} (h : GoodTail tail) :
    GoodTail (trimEnd (tail.map backslash)) ∧
      (Windows.trimEnd (tail.map backslash)).map backslash
        = Windows.trimEnd (tail.map backslash) := by
  obtain ⟨hcolon, hcontrol, hgood⟩ := h
  have hmem : ∀ c ∈ Windows.trimEnd (tail.map backslash), ∃ d ∈ tail, backslash d = c := by
    intro c hc
    exact List.mem_map.mp ((List.rdropWhile_prefix _ _).subset hc)
  have hmap : (Windows.trimEnd (tail.map backslash)).map backslash
      = Windows.trimEnd (tail.map backslash) := by
    conv_rhs => rw [← List.map_id (Windows.trimEnd (tail.map backslash))]
    refine List.map_congr_left fun c hc => ?_
    obtain ⟨d, -, rfl⟩ := hmem c hc
    exact backslash_backslash d
  refine ⟨⟨?_, ?_, ?_⟩, hmap⟩
  · intro hc
    obtain ⟨d, hd, heq⟩ := hmem _ hc
    unfold backslash at heq
    split_ifs at heq
    · cases heq
    · exact hcolon (heq ▸ hd)
  · intro c hc
    obtain ⟨d, hd, rfl⟩ := hmem c hc
    unfold backslash
    split_ifs
    · rfl
    · exact hcontrol d hd
  · rw [hmap]
    exact fun component hc => hgood component (splitOn_trimEnd_subset _ hc)

/-- Separators have no components between them. -/
theorem goodTail_of_separators {tail : Chars} (h : ∀ c ∈ tail, c = '\\' ∨ c = '/') :
    GoodTail tail := by
  refine ⟨fun hc => absurd (h _ hc) (by decide), ?_, ?_⟩
  · intro c hc
    rcases h c hc with rfl | rfl <;> decide
  · have hempty : ∀ component ∈ (tail.map backslash).splitOn '\\', component = [] := by
      induction tail with
      | nil => simp [List.splitOn, List.splitOnP_nil]
      | cons c tail ih =>
        obtain ⟨hc, htail⟩ := List.forall_mem_cons.mp h
        have hsplit : ('\\' :: tail.map backslash).splitOn '\\'
            = [[]] ++ (tail.map backslash).splitOn '\\' :=
          List.splitOnP_append_cons (p := (· == '\\')) [] _ rfl
        rw [List.map_cons, backslash_eq.mpr hc, hsplit]
        simpa using ih htail
    intro component hmem
    rw [hempty component hmem]
    exact ⟨rfl, rfl⟩

theorem ordinary_of_isAlpha {drive : Char} (hdrive : drive.isAlpha = true) (rest : Chars) :
    ordinary (drive :: rest) = drive :: rest := by
  have hne : ('\\' == drive) = false := by
    rw [beq_eq_false_iff_ne]
    rintro rfl
    exact absurd hdrive (by decide)
  unfold ordinary verbatim List.isPrefixOf?
  rw [hne]
  rfl

/-- **A canonical spelling is canonical, unless the path is a root with more separators.** -/
theorem localPath_idem {path result : Chars} (h : localPath path = .ok result) :
    localPath result = .ok result ↔ ¬ RootOnly path := by
  obtain ⟨drive, separator, tail, hpath, halpha, hsep, hgood, rfl⟩ := localPath_eq_ok.mp h
  have hroot : RootOnly path ↔ tail ≠ [] ∧ trimEnd (tail.map backslash) = [] := by
    rw [trimEnd_map_eq_nil]
    constructor
    · rintro ⟨drive', separators, hpath', -, hlen, hall⟩
      obtain ⟨rfl, rfl⟩ : drive = drive' ∧ separator :: tail = separators := by
        simpa using hpath.symm.trans hpath'
      refine ⟨?_, fun c hc => hall c (List.mem_cons_of_mem _ hc)⟩
      rintro rfl
      simp at hlen
    · rintro ⟨hne, hall⟩
      refine ⟨drive, separator :: tail, hpath, halpha, ?_, ?_⟩
      · have := List.length_pos_iff.mpr hne
        rw [List.length_cons]
        omega
      · exact List.forall_mem_cons.mpr ⟨hsep, hall⟩
  rw [hroot]
  by_cases hnil : tail = []
  · rw [if_pos hnil]
    simp only [hnil, ne_eq, not_true_eq_false, false_and, not_false_eq_true, iff_true]
    exact localPath_eq_ok.mpr ⟨drive, '\\', [], ordinary_of_isAlpha halpha _, halpha, .inl rfl,
      hnil ▸ hgood, rfl⟩
  · rw [if_neg hnil, trimEnd_root]
    by_cases hkept : trimEnd (tail.map backslash) = []
    · -- what is left of the drive has no separator
      simp only [hkept, if_true, ne_eq, hnil, not_false_eq_true, and_self, not_true_eq_false,
        iff_false]
      intro hagain
      obtain ⟨_, _, _, hshape, -⟩ := localPath_eq_ok.mp hagain
      rw [ordinary_of_isAlpha halpha] at hshape
      cases hshape
    · simp only [hkept, if_false, and_false, not_false_eq_true, iff_true]
      obtain ⟨hgood', hmap⟩ := hgood.trimEnd
      refine localPath_eq_ok.mpr ⟨drive, '\\', _, ordinary_of_isAlpha halpha _, halpha, .inl rfl,
        hgood', ?_⟩
      have hagain : trimEnd (trimEnd (tail.map backslash)) = trimEnd (tail.map backslash) :=
        List.rdropWhile_idempotent _ _
      rw [if_neg hkept, hmap, trimEnd_root, hagain, if_neg hkept]

/-- The two spellings differ in the case of ASCII letters only. -/
theorem samePath_eq {left right x y : Chars} (hx : localPath left = .ok x)
    (hy : localPath right = .ok y) : samePath left right = .ok (eqIgnoreAsciiCase x y) := by
  unfold samePath
  rw [hx, hy]
  rfl

/-- **Spelling equality is an equivalence of the accepted paths.** -/
theorem samePath_equivalence :
    Equivalence fun left right : {path : Chars // ∃ result, localPath path = .ok result} =>
      samePath left right = .ok true where
  refl := by
    rintro ⟨path, x, hx⟩
    rw [samePath_eq hx hx]
    simp [eqIgnoreAsciiCase, Text.eqIgnoreCase]
  symm := by
    rintro ⟨left, x, hx⟩ ⟨right, y, hy⟩ h
    rw [samePath_eq hx hy] at h
    rw [samePath_eq hy hx]
    simp_all [eqIgnoreAsciiCase, Text.eqIgnoreCase]
  trans := by
    rintro ⟨left, x, hx⟩ ⟨middle, y, hy⟩ ⟨right, z, hz⟩ h h'
    rw [samePath_eq hx hy] at h
    rw [samePath_eq hy hz] at h'
    rw [samePath_eq hx hz]
    simp_all [eqIgnoreAsciiCase, Text.eqIgnoreCase]

/-! ## Plans -/

/-- The value that is expected, and the one to write in its place. -/
structure WriteIntent where
  sid : Chars
  expected : PathValue
  desired : PathValue
deriving DecidableEq

def WriteIntent.new (sid : Chars) (expected desired : PathValue) : Except String WriteIntent :=
  (validateWriteIntent sid expected desired).map fun _ => ⟨sid, expected, desired⟩

/-- What can be written can be written back: the text of an intent is as long as the text of the
opposite one. -/
theorem validateWriteIntent_swap {sid : Chars} {expected desired : PathValue}
    (h : validateWriteIntent sid expected desired = .ok ()) :
    validateWriteIntent sid desired expected = .ok () := by
  unfold validateWriteIntent at h ⊢
  obtain ⟨hsid, h⟩ := Except.then_eq_ok.mp h
  obtain ⟨hexpected, h⟩ := Except.then_eq_ok.mp h
  obtain ⟨hdesired, h⟩ := Except.then_eq_ok.mp h
  refine Except.then_eq_ok.mpr ⟨hsid, Except.then_eq_ok.mpr ⟨hdesired,
    Except.then_eq_ok.mpr ⟨hexpected, ?_⟩⟩⟩
  rw [Except.ensure_eq_ok] at h ⊢
  refine le_trans (le_of_eq ?_) h
  simp only [object, Json.size, Json.print, Json.printFields, Json.utf8Length, List.map_cons,
    List.map_nil, List.map_append, List.sum_append, List.sum_cons, List.drop_succ_cons,
    List.drop_zero, List.cons_append]
  omega

theorem validateWriteIntent_desired {sid : Chars} {expected desired : PathValue}
    (h : validateWriteIntent sid expected desired = .ok ()) : desired.validate = .ok () := by
  unfold validateWriteIntent at h
  exact (Except.then_eq_ok.mp (Except.then_eq_ok.mp (Except.then_eq_ok.mp h).2).2).1

structure Insertion where
  intent : Option WriteIntent
  ownership : Option UserPath
deriving DecidableEq

/-- An entry of the value is the directory. Entries with variables are not looked at. -/
def lists (kind : PathKind) (directory value : Chars) : Bool :=
  (value.splitOn ';').any fun entry =>
    !(kind == .expandString && entry.contains '%') &&
      (samePath entry directory).toOption.getD false

def insertionRecord (current : PathValue) (directory : Chars) : UserPath where
  before := current.value
  after := appendedPath current.value directory
  beforeKind := current.kind
  afterKind := current.kind.getD .string

def planInsertion (current : PathValue) (directory : Chars) (previous : Option UserPath)
    (sid : Chars) : Except String Insertion := do
  current.validate
  let directory ← localPath directory
  ensure (';' ∉ directory) "directory cannot be one PATH field"
  let kind := current.kind.getD .string
  ensure (kind ≠ .expandString ∨ '%' ∉ directory)
    "literal directory would expand in the existing PATH format"
  forEach (fun record => record.validate directory) previous.toList
  if current.value.any (lists kind directory) then pure ⟨none, previous⟩
  else do
    let record := insertionRecord current directory
    record.validate directory
    let intent ← WriteIntent.new sid current ⟨some record.after, some kind⟩
    pure ⟨some intent, some record⟩

def planRollback (current : PathValue) (record : UserPath) (directory sid : Chars) :
    Except String (Option WriteIntent) := do
  current.validate
  let directory ← localPath directory
  record.validate directory
  if current.value ≠ some record.after ∨ current.kind ≠ some record.afterKind then pure none
  else (WriteIntent.new sid current ⟨record.before, record.beforeKind⟩).map some

section Insertion

variable {current : PathValue} {directory sid : Chars} {previous : Option UserPath}
  {insertion : Insertion}

theorem planInsertion_eq_ok :
    planInsertion current directory previous sid = .ok insertion ↔
      current.validate = .ok () ∧ ∃ normal, localPath directory = .ok normal ∧ ';' ∉ normal ∧
      (current.kind.getD .string ≠ .expandString ∨ '%' ∉ normal) ∧
      (∀ record ∈ previous, record.validate normal = .ok ()) ∧
      if current.value.any (lists (current.kind.getD .string) normal) then
        insertion = ⟨none, previous⟩
      else (insertionRecord current normal).validate normal = .ok () ∧ ∃ intent,
        WriteIntent.new sid current ⟨some (appendedPath current.value normal),
          some (current.kind.getD .string)⟩ = .ok intent ∧
        insertion = ⟨some intent, some (insertionRecord current normal)⟩ := by
  unfold planInsertion
  refine Except.then_eq_ok.trans (and_congr_right fun _ => Except.bind_eq_ok.trans
    (exists_congr fun normal => and_congr_right fun _ => Except.then_eq_ok.trans
      (and_congr Except.ensure_eq_ok (Except.then_eq_ok.trans (and_congr Except.ensure_eq_ok
        (Except.then_eq_ok.trans (and_congr ?_ ?_)))))))
  · simp [Except.forEach_eq_ok]
  · split_ifs
    · exact ⟨fun h => (Except.ok.inj h).symm, fun h => h ▸ rfl⟩
    · refine Except.then_eq_ok.trans (and_congr_right fun _ => Except.bind_eq_ok.trans
        (exists_congr fun intent => and_congr_right fun _ => ?_))
      exact ⟨fun h => (Except.ok.inj h).symm, fun h => h ▸ rfl⟩

theorem planInsertion_of_lists {normal : Chars} (hvalid : current.validate = .ok ())
    (hdirectory : localPath directory = .ok normal) (hfield : ';' ∉ normal)
    (hkind : current.kind.getD .string ≠ .expandString ∨ '%' ∉ normal)
    (hprevious : ∀ record ∈ previous, record.validate normal = .ok ())
    (hlists : current.value.any (lists (current.kind.getD .string) normal) = true) :
    planInsertion current directory previous sid = .ok ⟨none, previous⟩ :=
  planInsertion_eq_ok.mpr
    ⟨hvalid, normal, hdirectory, hfield, hkind, hprevious, by rw [if_pos hlists]⟩

/-- **An insertion can be undone.** -/
theorem undone_exactly {intent : WriteIntent}
    (h : planInsertion current directory previous sid = .ok insertion)
    (hwrite : insertion.intent = some intent) :
    ∃ record, insertion.ownership = some record ∧
      planRollback intent.desired record directory sid
        = .ok (some ⟨sid, intent.desired, current⟩) ∧
      ∀ other account written, other ≠ intent.desired →
        planRollback other record directory account ≠ .ok (some written) := by
  obtain ⟨-, normal, hnormal, -, -, -, h⟩ := planInsertion_eq_ok.mp h
  split_ifs at h
  · cases h
    cases hwrite
  obtain ⟨hrecord, intent', hnew, rfl⟩ := h
  cases hwrite
  obtain ⟨_, hvalid, rfl⟩ := Except.map_eq_ok.mp hnew
  have hdesired := validateWriteIntent_desired hvalid
  refine ⟨_, rfl, ?_, ?_⟩
  · unfold planRollback
    refine Except.then_eq_ok.mpr ⟨hdesired, Except.bind_eq_ok.mpr ⟨normal, hnormal,
      Except.then_eq_ok.mpr ⟨hrecord, ?_⟩⟩⟩
    rw [if_neg (by simp [insertionRecord])]
    exact Except.map_eq_ok.mpr ⟨_, Except.map_eq_ok.mpr
      ⟨(), validateWriteIntent_swap hvalid, rfl⟩, rfl⟩
  · intro other account written hother hplan
    unfold planRollback at hplan
    obtain ⟨-, hplan⟩ := Except.then_eq_ok.mp hplan
    obtain ⟨_, -, hplan⟩ := Except.bind_eq_ok.mp hplan
    obtain ⟨-, hplan⟩ := Except.then_eq_ok.mp hplan
    split_ifs at hplan with hchanged
    · cases hplan
    · push Not at hchanged
      exact hother (by cases other; simp_all [insertionRecord])

/-- An empty value is empty again, not absent. -/
theorem undone_exactly_empty :
    ∃ record, planRollback ⟨some "C:\\x".toList, some .string⟩ record "C:\\x".toList "S-1".toList
      = .ok (some ⟨"S-1".toList, ⟨some "C:\\x".toList, some .string⟩,
        ⟨some [], some .string⟩⟩) := by
  have hplan : planInsertion ⟨some [], some .string⟩ "C:\\x".toList none "S-1".toList
      = .ok ⟨some ⟨"S-1".toList, ⟨some [], some .string⟩, ⟨some "C:\\x".toList, some .string⟩⟩,
        some ⟨some [], "C:\\x".toList, some .string, .string⟩⟩ := by decide +kernel
  obtain ⟨record, -, hback, -⟩ := undone_exactly hplan rfl
  exact ⟨record, hback⟩

def Insertion.written (insertion : Insertion) (current : PathValue) : PathValue :=
  insertion.intent.elim current WriteIntent.desired

theorem mem_splitOn_appendedPath {normal : Chars} (h : ';' ∉ normal) (before : Option Chars) :
    normal ∈ (appendedPath before normal).splitOn ';' := by
  have hself : normal.splitOn ';' = [normal] :=
    List.splitOnP_eq_singleton fun c hc => beq_eq_false_iff_ne.mpr (ne_of_mem_of_not_mem hc h)
  have hafter (value : Chars) : normal ∈ (value ++ ';' :: normal).splitOn ';' := by
    have hsplit : (value ++ ';' :: normal).splitOn ';' = value.splitOn ';' ++ normal.splitOn ';' :=
      List.splitOnP_append_cons (p := (· == ';')) value _ rfl
    rw [hsplit, hself]
    simp
  unfold appendedPath
  split
  · simp [hself]
  · simp [hself]
  · next value _ =>
    split_ifs with hlast
    · obtain ⟨front, rfl⟩ := List.getLast?_eq_some_iff.mp hlast
      simpa using hafter front
    · exact hafter value

/-- An inserted directory is found again. -/
theorem lists_appendedPath {normal : Chars} (hnormal : localPath normal = .ok normal)
    (hfield : ';' ∉ normal) {kind : PathKind} (hkind : kind ≠ .expandString ∨ '%' ∉ normal)
    (before : Option Chars) : lists kind normal (appendedPath before normal) = true := by
  refine List.any_eq_true.mpr ⟨normal, mem_splitOn_appendedPath hfield before, ?_⟩
  rw [samePath_eq hnormal hnormal]
  rcases hkind with hkind | hkind
  · simp [hkind, eqIgnoreAsciiCase, Text.eqIgnoreCase, Except.toOption]
  · simp [hkind, eqIgnoreAsciiCase, Text.eqIgnoreCase, Except.toOption]

/-- Every insertion of the directory after an insertion of it leaves PATH as it is. -/
def InsertedOnce (directory normal : Chars) : Prop :=
  ∀ current previous sid insertion again account,
    planInsertion current directory previous sid = .ok insertion →
    (∀ record ∈ again, UserPath.validate record normal = .ok ()) →
    planInsertion (insertion.written current) directory again account = .ok ⟨none, again⟩

theorem insertedOnce {directory normal : Chars} (hdirectory : localPath directory = .ok normal)
    (hnormal : localPath normal = .ok normal) : InsertedOnce directory normal := by
  intro current previous sid insertion again account h hagain
  obtain ⟨hvalid, normal', hdirectory', hfield, hkind, -, h⟩ := planInsertion_eq_ok.mp h
  obtain rfl : normal = normal' := Except.ok.inj (hdirectory.symm.trans hdirectory')
  split_ifs at h with hlisted
  · subst h
    exact planInsertion_of_lists hvalid hdirectory hfield hkind hagain hlisted
  · obtain ⟨-, intent, hnew, rfl⟩ := h
    obtain ⟨_, hintent, rfl⟩ := Except.map_eq_ok.mp hnew
    exact planInsertion_of_lists (validateWriteIntent_desired hintent) hdirectory hfield hkind
      hagain (lists_appendedPath hnormal hfield hkind current.value)

/-- **Which directories are normalized, and inserted, once and for all.** -/
theorem normalization_iff (path : Chars) :
    ((∀ normal, localPath path = .ok normal →
      localPath normal = .ok normal ∧ InsertedOnce path normal) ↔ ¬ RootOnly path) ∧
    Equivalence fun left right : {path : Chars // ∃ result, localPath path = .ok result} =>
      samePath left right = .ok true := by
  refine ⟨⟨?_, ?_⟩, samePath_equivalence⟩
  · rintro h ⟨drive, separators, hpath, halpha, hlen, hall⟩
    obtain ⟨separator, tail, rfl⟩ :=
      List.exists_cons_of_length_pos (by omega : 0 < separators.length)
    obtain ⟨hsep, htail⟩ := List.forall_mem_cons.mp hall
    have hnormal := localPath_eq_ok.mpr
      ⟨drive, separator, tail, hpath, halpha, hsep, goodTail_of_separators htail, rfl⟩
    exact (localPath_idem hnormal).mp (h _ hnormal).1
      ⟨drive, separator :: tail, hpath, halpha, hlen, hall⟩
  · intro hroot normal hpath
    have hnormal := (localPath_idem hpath).mpr hroot
    exact ⟨hnormal, insertedOnce hpath hnormal⟩

/-- A root with two separators is inserted again and again. -/
theorem root_inserted_twice :
    ∃ first second, planInsertion ⟨none, none⟩ "C:\\\\".toList none "S-1".toList = .ok first ∧
      planInsertion (first.written ⟨none, none⟩) "C:\\\\".toList first.ownership "S-1".toList
        = .ok second ∧
      (second.written ⟨none, none⟩).value = some "C:;C:".toList := by
  refine ⟨⟨some ⟨"S-1".toList, ⟨none, none⟩, ⟨some "C:".toList, some .string⟩⟩,
    some ⟨none, "C:".toList, none, .string⟩⟩, ⟨some ⟨"S-1".toList, ⟨some "C:".toList, some .string⟩,
      ⟨some "C:;C:".toList, some .string⟩⟩, some ⟨some "C:".toList, "C:;C:".toList, some .string,
        .string⟩⟩, ?_⟩
  decide +kernel

end Insertion

end Locron.Windows
