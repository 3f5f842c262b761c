import Conform.Proofs.Coercion.Objections
import Conform.Proofs.Schema.Associativity
/-!
# The order of merged schemas

Of two leaves that go together a merged schema keeps the entry of the first.
The entries then agree in the cardinality that is in effect, where one of them
may declare a single value and the other nothing. Coercion compares what is
declared, so the order of merging shows at such a leaf when the request
declares several values there, and nowhere else.
-/

namespace Conform

open Conform.Tree (root SameFrame)

namespace Entry

variable {atlas : Atlas} {entry : Entry} {a : Attribute}

theorem checkCardinality_of_single (hsingle : a.isMultiple = false) (path : Path) :
    entry.checkCardinality path a =
      if a.cardinality?.isSome && entry.cardinality.isMultiple then
        .error (.mismatch path a.describe entry.describe)
      else .ok () := by
  rw [checkCardinality, cardinality]
  cases hfound : a.cardinality? with
  | none => rfl
  | some found =>
    have hone : found.isMultiple = false := by
      rwa [Attribute.isMultiple, Attribute.cardinality, hfound] at hsingle
    cases entry.cardinality? with
    | none => rfl
    | some expected => simp [hone]

theorem cardinalityFor_of_single (hsingle : a.isMultiple = false) :
    entry.cardinalityFor a = entry.cardinality := by
  rw [cardinalityFor, (Cardinality.isMultiple_eq_false_iff a.cardinality).mp hsingle, cardinality]

theorem conform_of_multiple (hsingle : entry.cardinality? = some .single)
    (hmultiple : a.isMultiple = true) (zone : Zone) (path : Path) :
    entry.conform atlas zone path a =
      .error (.failure (.mismatch path a.describe entry.describe)) := by
  have hcheck : entry.checkCardinality path a =
      .error (.mismatch path a.describe entry.describe) := by
    rw [Attribute.isMultiple, Attribute.cardinality] at hmultiple
    cases hfound : a.cardinality? with
    | none => simp [hfound, Cardinality.isMultiple] at hmultiple
    | some found =>
      have hseveral : (found.isMultiple != Cardinality.single.isMultiple) = true := by
        rw [hfound, Option.getD_some] at hmultiple
        rw [hmultiple]
        rfl
      simp only [checkCardinality, hfound, hsingle, hseveral, if_true]
  rw [conform, hcheck]
  rfl

theorem conform_congr {other : Entry} (hkind : entry.kind? = other.kind?)
    (hoptions : entry.options = other.options)
    (hcardinality : entry.cardinality = other.cardinality)
    (hdeclared : a.isMultiple = true → entry.cardinality? = other.cardinality?) (zone : Zone)
    (path : Path) : entry.conform atlas zone path a = other.conform atlas zone path a := by
  cases hmultiple : a.isMultiple with
  | true =>
    have hsame : entry = other := by
      cases entry
      cases other
      simp_all
    rw [hsame]
  | false =>
    have hdescribe : entry.describe = other.describe := by
      rw [describe, describe, hkind, hcardinality]
    have htarget : entry.target a = other.target a := by
      rw [target, target, hkind]
    have hcheck : entry.checkCardinality path a = other.checkCardinality path a := by
      rw [checkCardinality_of_single hmultiple, checkCardinality_of_single hmultiple, hcardinality,
        hdescribe]
    have hconvert : convertChecked atlas a.kind (other.target a) entry zone =
        convertChecked atlas a.kind (other.target a) other zone := by
      funext value
      have hzone : entry.zone? atlas = other.zone? atlas := by
        rw [zone?, zone?, hoptions]
      unfold convertChecked convert
      rw [hzone]
    rw [conform, conform, hcheck, checkKind, checkKind, htarget, hconvert, hmultiple,
      cardinalityFor_of_single hmultiple, cardinalityFor_of_single hmultiple, hcardinality]
    rfl

end Entry

namespace Schema

variable {atlas : Atlas} {a b ab ba : Schema} {request : Request}

theorem conform_congr (hlinked : request.Linked) (settings : Settings)
    (hsame : ∀ leaf ∈ request.leaves,
      a.leafOutcome atlas settings.zone request leaf =
        b.leafOutcome atlas settings.zone request leaf) :
    a.conform atlas settings request = b.conform atlas settings request := by
  rw [conform_eq, conform_eq]
  rcases leafOutcome_ok_or_first atlas a settings.zone request request.leaves with
    hok | ⟨before, leaf, after, halt, hleaves, hbefore, hfail⟩
  · have hok' : ∀ leaf ∈ request.leaves,
        ∃ payload?, b.leafOutcome atlas settings.zone request leaf = .ok payload? := by
      intro leaf hleaf
      rw [← hsame leaf hleaf]
      exact hok leaf hleaf
    obtain ⟨hresult, hdone, hkept⟩ := conformInPlace_ok hlinked settings hok
    obtain ⟨hresult', hdone', hkept'⟩ := conformInPlace_ok hlinked settings hok'
    have hframe := conformInPlace_sameFrame hlinked atlas a settings
    have hframe' := conformInPlace_sameFrame hlinked atlas b settings
    have htree : (a.conformInPlace atlas settings request).1 =
        (b.conformInPlace atlas settings request).1 := by
      apply (hframe.trans hframe'.symm).eq_of_payload?
      intro id
      by_cases hleaf : id ∈ request.leaves
      · have hheld := (hdone id hleaf).symm.trans ((hsame id hleaf).trans (hdone' id hleaf))
        exact Except.ok.inj hheld
      · rw [hkept id hleaf, hkept' id hleaf]
    simp only [hresult, hresult']
    exact Prod.ext htree (hresult.trans hresult'.symm)
  · have hbefore' : ∀ earlier ∈ before,
        ∃ payload?, b.leafOutcome atlas settings.zone request earlier = .ok payload? := by
      intro earlier hearlier
      rw [← hsame earlier (by rw [hleaves]; exact List.mem_append_left _ hearlier)]
      exact hbefore earlier hearlier
    have hfail' : b.leafOutcome atlas settings.zone request leaf = .error halt := by
      rw [← hsame leaf (by simp [hleaves]), hfail]
    obtain ⟨hresult, -, -⟩ := conformInPlace_error hlinked settings hleaves hbefore hfail
    obtain ⟨hresult', -, -⟩ := conformInPlace_error hlinked settings hleaves hbefore' hfail'
    simp only [hresult, hresult']

/-- The root and the nodes with children have blank entries, and no entry has options. -/
structure LeavesOnly (schema : Schema) : Prop where
  blank {id : NodeId} {entry : Entry} (held : schema.payload? id = some entry)
    (inner : id = root ∨ schema.isLeaf id = false) : entry = .blank
  options {id : NodeId} {entry : Entry} (held : schema.payload? id = some entry) :
    entry.options = .empty

section LeavesOnly

variable {ours theirs place : Outline Entry}

theorem LeavesOnly.payload_of_inner (h : a.LeavesOnly) (ha : Outlined a ours) {names : List String}
    (hplace : ours.at? names = some place) (hinner : names = [] ∨ place.leaf? = none) :
    place.root.payload = .blank := by
  have hpath : ours.at? (Path.mk names).segments = some place := hplace
  obtain ⟨id, hid, hout⟩ := ha.linked.exists_resolve? ha.outline? hpath
  apply h.blank (Tree.payload?_of_outline? hout)
  rcases hinner with rfl | hinner
  · left
    rw [ha.linked.resolve?_root] at hid
    exact (Option.some.inj hid).symm
  · right
    rw [ha.linked.isLeaf_of_outline? hout]
    simpa [Outline.leaf?] using hinner

theorem LeavesOnly.payload_bare (h : a.LeavesOnly) (ha : Outlined a ours) {names : List String}
    (hplace : ours.at? names = some place) : place.bare.root.payload = place.root.payload := by
  cases hempty : place.below.isEmpty with
  | true => rw [Outline.root_bare hempty]
  | false =>
    have hinner : place.leaf? = none := by simp [Outline.leaf?, hempty]
    rw [h.payload_of_inner ha hplace (.inr hinner), Outline.bare, bareTree]
    simp only [hempty]
    rfl

theorem LeavesOnly.options_of_payloadAt? (h : a.LeavesOnly) {path : Path} {entry : Entry}
    (hentry : a.payloadAt? path = some entry) : entry.options = .empty := by
  obtain ⟨id, -, hid⟩ := Option.bind_eq_some_iff.mp hentry
  exact h.options hid

/-- The merged schema has the entries of the first schema, and those that only the second has. -/
theorem payloadAt?_of_merge (ha : Outlined a ours) (hb : Outlined b theirs) (hleaves : a.LeavesOnly)
    (hleaves' : b.LeavesOnly) (h : a.merge b = .ok ab) (path : Path) :
    ab.payloadAt? path = (a.payloadAt? path).or (b.payloadAt? path) := by
  obtain ⟨first, second, merged, hfirst, hsecond, hab, hmerged, hroot, -, hjoined⟩ :=
    outlines_of_merge ha.linked hb.linked ha.named hb.named h
  rw [ha.outline?] at hfirst
  rw [hb.outline?] at hsecond
  cases hfirst
  cases hsecond
  rw [hab.payloadAt?_eq hmerged, ha.linked.payloadAt?_eq ha.outline?,
    hb.linked.payloadAt?_eq hb.outline?]
  cases path.segments with
  | nil => simp [Outline.at?, hroot]
  | cons name rest =>
    have hjoin := hjoined name rest
    generalize hours : ours.at? (name :: rest) = ours? at hjoin
    generalize htheirs : theirs.at? (name :: rest) = theirs? at hjoin
    generalize merged.at? (name :: rest) = merged? at hjoin
    cases hjoin with
    | nowhere => rfl
    | ours place => simp [hleaves.payload_bare ha hours]
    | theirs place => simp [hleaves'.payload_bare hb htheirs]
    | both root _ _ => simp [root]

/-- Entries at one path of schemas that can be merged differ in what they declare of the cardinality
at most, and not in the one that is in effect. -/
theorem entries_of_merge (ha : Outlined a ours) (hb : Outlined b theirs) (hleaves : a.LeavesOnly)
    (hleaves' : b.LeavesOnly) (h : a.merge b = .ok ab) {path : Path} {mine yours : Entry}
    (hmine : a.payloadAt? path = some mine) (hyours : b.payloadAt? path = some yours) :
    mine.kind? = yours.kind? ∧ mine.options = yours.options ∧
      mine.cardinality = yours.cardinality := by
  have hoptions : mine.options = yours.options := by
    rw [hleaves.options_of_payloadAt? hmine, hleaves'.options_of_payloadAt? hyours]
  rw [ha.linked.payloadAt?_eq ha.outline?] at hmine
  rw [hb.linked.payloadAt?_eq hb.outline?] at hyours
  obtain ⟨place, hplace, rfl⟩ := Option.map_eq_some_iff.mp hmine
  obtain ⟨place', hplace', rfl⟩ := Option.map_eq_some_iff.mp hyours
  have hblank (hinner : path.segments = [] ∨ place.leaf? = none ∧ place'.leaf? = none) :
      place.root.payload = place'.root.payload := by
    rw [hleaves.payload_of_inner ha hplace (hinner.imp_right And.left),
      hleaves'.payload_of_inner hb hplace' (hinner.imp_right And.right)]
  cases hsegments : path.segments with
  | nil =>
    rw [hblank (.inl hsegments)]
    exact ⟨rfl, rfl, rfl⟩
  | cons name rest =>
    have hagree := (merge_ok_iff ha hb).mp ⟨ab, h⟩ name rest
    rw [← hsegments, Outline.leafAt?, Outline.leafAt?, hplace, hplace', Option.map_some,
      Option.map_some, agree_some_iff] at hagree
    generalize hleaf : place.leaf? = leaf? at hagree
    generalize hleaf' : place'.leaf? = leaf?' at hagree
    cases hagree with
    | inner =>
      rw [hblank (.inr ⟨hleaf, hleaf'⟩)]
      exact ⟨rfl, rfl, rfl⟩
    | leaves ourKind theirKind cardinality =>
      rw [← Outline.payload_of_leaf? hleaf] at ourKind cardinality
      rw [← Outline.payload_of_leaf? hleaf'] at theirKind cardinality
      exact ⟨ourKind.trans theirKind.symm, hoptions, cardinality⟩

end LeavesOnly

/-- The request declares several values at a leaf for which the first schema declares a single value
and the second nothing. -/
def Contested (a b : Schema) (request : Request) (leaf : NodeId) : Prop :=
  ∃ path held mine yours, request.pathFrom? root leaf = some path ∧
    request.payload? leaf = some held ∧ held.isMultiple = true ∧
    a.payloadAt? path = some mine ∧ b.payloadAt? path = some yours ∧
    mine.cardinality? = some .single ∧ yours.cardinality? = none

theorem cardinality?_eq_of_not_contested {leaf : NodeId} {path : Path} {held : Attribute}
    {mine yours : Entry} (hpath : request.pathFrom? root leaf = some path)
    (hheld : request.payload? leaf = some held) (hmultiple : held.isMultiple = true)
    (hmine : a.payloadAt? path = some mine) (hyours : b.payloadAt? path = some yours)
    (hcardinality : mine.cardinality = yours.cardinality) (hfree : ¬Contested a b request leaf)
    (hfree' : ¬Contested b a request leaf) : mine.cardinality? = yours.cardinality? := by
  rw [Entry.cardinality, Entry.cardinality] at hcardinality
  cases hfirst : mine.cardinality? with
  | none =>
    cases hsecond : yours.cardinality? with
    | none => rfl
    | some declared =>
      rw [hfirst, hsecond, Option.getD_none, Option.getD_some] at hcardinality
      subst hcardinality
      exact (hfree' ⟨path, held, yours, mine, hpath, hheld, hmultiple, hyours, hmine, hsecond,
        hfirst⟩).elim
  | some declared =>
    cases hsecond : yours.cardinality? with
    | none =>
      rw [hfirst, hsecond, Option.getD_none, Option.getD_some] at hcardinality
      subst hcardinality
      exact (hfree ⟨path, held, mine, yours, hpath, hheld, hmultiple, hmine, hyours, hfirst,
        hsecond⟩).elim
    | some other =>
      rw [hfirst, hsecond, Option.getD_some, Option.getD_some] at hcardinality
      rw [hcardinality]

theorem leafOutcome_congr_entry {zone : Zone} {leaf : NodeId}
    (h : ∀ path, request.pathFrom? root leaf = some path → a.payloadAt? path = b.payloadAt? path) :
    a.leafOutcome atlas zone request leaf = b.leafOutcome atlas zone request leaf := by
  have hfound : a.counterpart? request leaf = b.counterpart? request leaf := by
    rw [counterpart?, counterpart?]
    cases hpath : request.pathFrom? root leaf with
    | none => rfl
    | some path => simp only [Option.bind_eq_bind, Option.bind_some, h path hpath]
  rw [leafOutcome, leafOutcome, outcome?, outcome?, hfound]

theorem leafOutcome_merge_comm {ours theirs : Outline Entry} (ha : Outlined a ours)
    (hb : Outlined b theirs) (hleaves : a.LeavesOnly) (hleaves' : b.LeavesOnly)
    (hab : a.merge b = .ok ab) (hba : b.merge a = .ok ba) (zone : Zone) {leaf : NodeId}
    {held : Attribute} (hheld : request.payload? leaf = some held)
    (hfree : ¬Contested a b request leaf) (hfree' : ¬Contested b a request leaf) :
    ab.leafOutcome atlas zone request leaf = ba.leafOutcome atlas zone request leaf := by
  have hpayload := payloadAt?_of_merge ha hb hleaves hleaves' hab
  have hpayload' := payloadAt?_of_merge hb ha hleaves' hleaves hba
  by_cases hboth : ∃ path mine yours, request.pathFrom? root leaf = some path ∧
      a.payloadAt? path = some mine ∧ b.payloadAt? path = some yours
  · obtain ⟨path, mine, yours, hpath, hmine, hyours⟩ := hboth
    obtain ⟨hkind, hoptions, hcardinality⟩ :=
      entries_of_merge ha hb hleaves hleaves' hab hmine hyours
    have hentry : ab.payloadAt? path = some mine := by rw [hpayload, hmine, Option.some_or]
    have hentry' : ba.payloadAt? path = some yours := by rw [hpayload', hyours, Option.some_or]
    rw [leafOutcome_eq_conform hpath hentry hheld, leafOutcome_eq_conform hpath hentry' hheld]
    congr 1
    apply Entry.conform_congr hkind hoptions hcardinality
    intro hmultiple
    exact cardinality?_eq_of_not_contested hpath hheld hmultiple hmine hyours hcardinality hfree
      hfree'
  · apply leafOutcome_congr_entry
    intro path hpath
    rw [hpayload, hpayload']
    cases hmine : a.payloadAt? path with
    | none => rw [Option.none_or, Option.or_none]
    | some mine =>
      cases hyours : b.payloadAt? path with
      | none => rw [Option.none_or, Option.or_none]
      | some yours => exact absurd ⟨path, mine, yours, hpath, hmine, hyours⟩ hboth

theorem exists_failure_of_conform_error (hlinked : request.Linked)
    (hoptions : ∀ path entry, a.payloadAt? path = some entry → entry.options = .empty)
    {settings : Settings} {halt : Halt} (h : (a.conform atlas settings request).2 = .error halt) :
    ∃ failure, halt = .failure failure := by
  obtain ⟨leaf, -, path, entry, held, -, hentry, -, hmem⟩ :=
    exists_objection_of_conform_error hlinked h
  have hnone : entry.options.get? Zone.optionName = none := by
    rw [hoptions path entry hentry]
    rfl
  rcases Entry.zoneless_or_code_of_mem_objections hmem with ⟨-, -, hzoneless⟩ | ⟨failure, rfl, -⟩
  · cases hzoneless with
    | illegal option | stopped option =>
      rw [hnone] at option
      cases option
  · exact ⟨failure, rfl⟩

theorem conform_error_of_contested (hlinked : request.Linked) (settings : Settings)
    (hleaves : a.LeavesOnly) (hleaves' : b.LeavesOnly)
    (hpayload : ∀ path, ab.payloadAt? path = (a.payloadAt? path).or (b.payloadAt? path))
    (hcontested : ∃ leaf ∈ request.leaves, Contested a b request leaf) :
    ∃ failure, (ab.conform atlas settings request).2 = .error (.failure failure) := by
  obtain ⟨leaf, hleaf, path, held, mine, yours, hpath, hheld, hmultiple, hmine, -, hsingle, -⟩ :=
    hcontested
  have hentry : ab.payloadAt? path = some mine := by
    rw [hpayload, hmine, Option.some_or]
  have hoptions (other : Path) (entry : Entry) (held : ab.payloadAt? other = some entry) :
      entry.options = .empty := by
    rw [hpayload, Option.or_eq_some_iff] at held
    rcases held with hours | ⟨-, htheirs⟩
    · exact hleaves.options_of_payloadAt? hours
    · exact hleaves'.options_of_payloadAt? htheirs
  cases hresult : (ab.conform atlas settings request).2 with
  | error halt =>
    obtain ⟨failure, rfl⟩ := exists_failure_of_conform_error hlinked hoptions hresult
    exact ⟨failure, rfl⟩
  | ok _ =>
    have hok : ab.conform atlas settings request =
        ((ab.conform atlas settings request).1, .ok ()) := by
      rw [← hresult]
    have hdone := (leafOutcome_of_conform hlinked hok).2 leaf hleaf
    rw [leafOutcome_eq_conform hpath hentry hheld,
      Entry.conform_of_multiple hsingle hmultiple] at hdone
    cases hdone

/-- Two schemas merged in both orders coerce every request in the same way that declares several
values nowhere where one schema declares a single value and the other nothing. At such a leaf the
coercion fails when the first schema is the one that declares. -/
theorem conform_merge_comm {good good' : Entry → Prop} {obtained : Attribute → Prop}
    (ha : Tree.Reachable good a) (hb : Tree.Reachable good' b) (hnamed : a.Named)
    (hnamed' : b.Named) (hleaves : a.LeavesOnly) (hleaves' : b.LeavesOnly)
    (hab : a.merge b = .ok ab) (hba : b.merge a = .ok ba)
    (hrequest : Tree.Reachable obtained request) (settings : Settings) :
    ((∀ leaf ∈ request.leaves, ¬Contested a b request leaf ∧ ¬Contested b a request leaf) →
      ab.conform atlas settings request = ba.conform atlas settings request) ∧
    ((∃ leaf ∈ request.leaves, Contested a b request leaf) →
      ∃ failure, (ab.conform atlas settings request).2 = .error (.failure failure)) ∧
    ((∃ leaf ∈ request.leaves, Contested b a request leaf) →
      ∃ failure, (ba.conform atlas settings request).2 = .error (.failure failure)) := by
  obtain ⟨ours, ha⟩ := exists_outlined ha hnamed
  obtain ⟨theirs, hb⟩ := exists_outlined hb hnamed'
  have hlinked := hrequest.linked
  have hpayload := payloadAt?_of_merge ha hb hleaves hleaves' hab
  have hpayload' := payloadAt?_of_merge hb ha hleaves' hleaves hba
  refine ⟨fun hfree => ?_, conform_error_of_contested hlinked settings hleaves hleaves' hpayload,
    conform_error_of_contested hlinked settings hleaves' hleaves hpayload'⟩
  apply conform_congr hlinked settings
  intro leaf hleaf
  obtain ⟨hfree, hfree'⟩ := hfree leaf hleaf
  obtain ⟨held, hheld⟩ :=
    Tree.contains_iff_payload?.mp ((hlinked.mem_leaves_iff leaf).mp hleaf).1
  exact leafOutcome_merge_comm ha hb hleaves hleaves' hab hba settings.zone hheld hfree hfree'

private def tagSchema (cardinality? : Option Cardinality) : Schema :=
  .ofOutline ⟨⟨some "post", .blank⟩,
    .cons ⟨some "tags", ⟨some .string, cardinality?, .empty⟩⟩ .nil .nil⟩

private theorem leavesOnly_tagSchema (cardinality? : Option Cardinality) :
    (tagSchema cardinality?).LeavesOnly := by
  have hroot : (tagSchema cardinality?).payload? 0 = some .blank := rfl
  have htags : (tagSchema cardinality?).payload? 1 =
      some ⟨some .string, cardinality?, .empty⟩ := rfl
  have hinner : (tagSchema cardinality?).isLeaf 1 = true := rfl
  have hid {id : NodeId} {entry : Entry}
      (held : (tagSchema cardinality?).payload? id = some entry) : id = 0 ∨ id = 1 := by
    have hlt : id < 2 :=
      Tree.lt_bound_of_contains (Tree.contains_iff_payload?.mpr ⟨entry, held⟩)
    exact Nat.le_one_iff_eq_zero_or_eq_one.mp (Nat.le_of_lt_succ hlt)
  constructor
  · intro id entry held inner
    rcases hid held with rfl | rfl
    · rw [hroot] at held
      exact (Option.some.inj held).symm
    · simp [hinner, root] at inner
  · intro id entry held
    rcases hid held with rfl | rfl
    · rw [hroot] at held
      rw [← Option.some.inj held, Entry.blank]
    · rw [htags] at held
      rw [← Option.some.inj held]

private def oneTag : Request :=
  .ofOutline ⟨⟨some "post", .blank⟩, .cons ⟨some "tags", .string "lean"⟩ .nil .nil⟩

private def severalTags : Request :=
  .ofOutline ⟨⟨some "post", .blank⟩,
    .cons ⟨some "tags", ⟨some .string, some .multiset, some (.array [.string "lean"])⟩⟩ .nil .nil⟩

private theorem reachable_severalTags : Tree.Reachable Attribute.Obtainable severalTags := by
  refine Tree.reachable_ofOutline _ .blank fun label hlabel => ?_
  have hmade : Attribute.multiple .string .multiset [.string "lean"] =
    .ok ⟨some .string, some .multiset, some (.array [.string "lean"])⟩ := rfl
  rw [List.mem_singleton.mp hlabel]
  exact .multiple hmade

theorem conform_merge_comm_tags :
    Tree.Reachable (fun _ => True) (tagSchema (some .single)) ∧
    Tree.Reachable (fun _ => True) (tagSchema none) ∧
    (tagSchema (some .single)).Named ∧ (tagSchema none).Named ∧
    (tagSchema (some .single)).LeavesOnly ∧ (tagSchema none).LeavesOnly ∧
    ∃ ab ba, (tagSchema (some .single)).merge (tagSchema none) = .ok ab ∧
      (tagSchema none).merge (tagSchema (some .single)) = .ok ba ∧
      ab.conform .london ⟨.utc⟩ oneTag = ba.conform .london ⟨.utc⟩ oneTag ∧
      ∃ failure, (ab.conform .london ⟨.utc⟩ severalTags).2 = .error (.failure failure) := by
  have hreachable (cardinality? : Option Cardinality) :
      Tree.Reachable (fun _ => True) (tagSchema cardinality?) :=
    Tree.reachable_ofOutline _ trivial fun _ _ => trivial
  have hone : Tree.Reachable (fun _ => True) oneTag :=
    Tree.reachable_ofOutline _ trivial fun _ _ => trivial
  have hnamed : (tagSchema (some .single)).Named := by decide
  have hnamed' : (tagSchema none).Named := by decide
  have hab : (tagSchema (some .single)).merge (tagSchema none) =
      .ok (tagSchema (some .single)) := rfl
  have hba : (tagSchema none).merge (tagSchema (some .single)) = .ok (tagSchema none) := rfl
  have hleaves := leavesOnly_tagSchema (some .single)
  have hleaves' := leavesOnly_tagSchema none
  have hfree (a b : Schema) : ∀ leaf ∈ oneTag.leaves, ¬Contested a b oneTag leaf := by
    rintro leaf hleaf ⟨path, held, mine, yours, -, hheld, hmultiple, -⟩
    rw [List.mem_singleton.mp hleaf] at hheld
    rw [← Option.some.inj hheld] at hmultiple
    cases hmultiple
  have hcontested : Contested (tagSchema (some .single)) (tagSchema none) severalTags 1 :=
    ⟨⟨["tags"]⟩, _, _, _, rfl, rfl, rfl, rfl, rfl, rfl, rfl⟩
  obtain ⟨hsame, -⟩ := conform_merge_comm (hreachable _) (hreachable _) hnamed hnamed' hleaves
    hleaves' hab hba hone ⟨.utc⟩
  obtain ⟨-, hfails, -⟩ := conform_merge_comm (hreachable _) (hreachable _) hnamed hnamed' hleaves
    hleaves' hab hba reachable_severalTags ⟨.utc⟩
  exact ⟨hreachable _, hreachable _, hnamed, hnamed', hleaves, hleaves', _, _, hab, hba,
    hsame fun leaf hleaf => ⟨hfree _ _ leaf hleaf, hfree _ _ leaf hleaf⟩,
    hfails ⟨1, List.mem_singleton_self 1, hcontested⟩⟩

/-- Several tags are refused by the schemas merged in one order and accepted in the other. -/
theorem merge_order_matters :
    Tree.Reachable (fun _ => True) (tagSchema (some .single)) ∧
    Tree.Reachable (fun _ => True) (tagSchema none) ∧
    (tagSchema (some .single)).Named ∧ (tagSchema none).Named ∧
    (tagSchema (some .single)).LeavesOnly ∧ (tagSchema none).LeavesOnly ∧
    Tree.Reachable Attribute.Obtainable severalTags ∧
    ∃ ab ba, (tagSchema (some .single)).merge (tagSchema none) = .ok ab ∧
      (tagSchema none).merge (tagSchema (some .single)) = .ok ba ∧
      (∃ failure, (ab.conform .london ⟨.utc⟩ severalTags).2 = .error (.failure failure) ∧
        failure.code = "WRONG_TYPES") ∧
      (ba.conform .london ⟨.utc⟩ severalTags).2 = .ok () := by
  have hreachable (cardinality? : Option Cardinality) :
      Tree.Reachable (fun _ => True) (tagSchema cardinality?) :=
    Tree.reachable_ofOutline _ trivial fun _ _ => trivial
  exact ⟨hreachable _, hreachable _, by decide, by decide, leavesOnly_tagSchema _,
    leavesOnly_tagSchema _, reachable_severalTags, tagSchema (some .single), tagSchema none, rfl,
    rfl, ⟨_, rfl, rfl⟩, rfl⟩

end Schema

end Conform
