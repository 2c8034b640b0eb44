import Ndhs.Dsim.Geometry
import Ndhs.Lib.Text

/-!
# The names of images (`ConfigureImage`, `dsim_SetStr`, `dsim_GetStr`, `dsim_Locate`)

`ConfigureImage` sets the attributes of the images of a new file, and configures it:

    dsim_Set (dsim, i, DSIM_ObjectName, im->name);
    dsim_Set (dsim, i, DSIM_ObjectType, im->type);

`dsim_Set` is for integers and ignores these two, so `dsim_Configure` gives the images the default type and names.
`dsim_Locate` advances the file descriptor in its loop, and not the image.

* `none` is an access outside of an object, and a descriptor that `ConfigureImage` gives up is `some none`.
* `sprintf` is that of the host, with the format of the names, which the environment chooses.
* `hdr i` says whether the keywords of header `i` are written, and `mapped` whether the file is mapped.
* The context of the readout is part of the server and is left out here, also where `ConfigureImage` changes it.

`given_iff`: the names and types that are returned are the ones that were given exactly if those are the defaults.
`named_iff`: they are, and `dsim_Locate` finds them, exactly if there are no images.
-/

namespace Ndhs.Dsim

open Text

/-- The parameters of the interface. -/
inductive Param where
  | axlen1
  | axlen2
  | axlen3
  | extend
  | fileAccessMode
  | fileDescriptor
  | fileIndex
  | imageNameFormat
  | imageNumber
  | maxKeywords
  | nAxes
  | nImages
  | objectName
  | objectType
  | pixelSize
  | pixelType
  | pixelConvert
  | byteSwapped
deriving DecidableEq

/-- `SZ_NAME` -/
def szName : Nat := 128

/-- `SZ_PATHNAME` -/
def szPathname : Nat := 256

/-- The type of an image that has no other one. -/
def imageType : Str := ['I', 'M', 'A', 'G', 'E']

/-- `struct image` with its names. -/
structure NamedImage where
  name : Str
  type : Str
  imagenumber : Nat
  geometry : Image

/-- An image from `calloc`. -/
def NamedImage.cleared : NamedImage := ⟨[], [], 0, ⟨0, 0, fun _ => 0, 0, 0, 0, 0, 0, 0⟩⟩

/-- `struct dsimage` with its names, and the list of images as it is allocated. -/
structure NamedFile where
  name : Str
  type : Str
  imformat : Str
  configured : Bool
  maxkeywords : Int
  nimages : Int
  imagelist : Option (List NamedImage)
  hdrOffset : Int
  hdrLength : Int
  filesize : Int

namespace NamedFile

variable (ds : NamedFile)

/-- The descriptor of a file that `dsim_Open` has created. -/
def opened (objectname imformat : Str) (maxkeywords : Int) : NamedFile :=
  ⟨objectname, [], imformat, false, maxkeywords, 0, none, 0, 0, 0⟩

/-- The descriptor of image `image` is requested: the list is allocated if there is none. -/
def request (calloc : Bool) (image : Int) : Option NamedFile :=
  if image < 1 ∨ ds.nimages < image then none
  else if ds.imagelist.isNone then
    if calloc then some { ds with imagelist := some (List.replicate ds.nimages.toNat .cleared) } else none
  else some ds

/-- Image `image` of the list -/
def image (image : Int) : Option NamedImage := (ds.imagelist.getD [])[(image - 1).toNat]?

/-- An image of the list is changed. -/
def change (image : Int) (f : NamedImage → NamedImage) : Option (NamedFile × Bool) :=
  (ds.image image).map fun im =>
    ({ ds with imagelist := ds.imagelist.map fun ims => ims.set (image - 1).toNat (f im) }, true)

end NamedFile

/-- `dsim_Set`, with its status -/
def dsimSet (calloc : Bool) (ds : NamedFile) (image : Int) (param : Param) (value : Int) :
    Option (NamedFile × Bool) :=
  if image = 0 then
    match param with
    | .nImages => some ({ ds with nimages := value }, true)
    | .maxKeywords => some ({ ds with maxkeywords := value }, true)
    | _ => some (ds, false)
  else
    match ds.request calloc image with
    | none => some (ds, false)
    | some ds =>
      let geometry (f : Image → Image) : Option (NamedFile × Bool) :=
        ds.change image fun im => { im with geometry := f im.geometry }
      let axlen (axis : Nat) : Option (NamedFile × Bool) :=
        geometry fun g => { g with axlen := fun i => if i = axis then value else g.axlen i }
      match param with
      | .pixelType => geometry fun g => { g with pixtype := value }
      | .nAxes =>
        if value < 0 ∨ maxdim < value then some (ds, false) else geometry fun g => { g with naxes := value.toNat }
      | .axlen1 => axlen 0
      | .axlen2 => axlen 1
      | .axlen3 => axlen 2
      | .maxKeywords => geometry fun g => { g with maxkeywords := value }
      | .extend => geometry fun g => { g with extend := value }
      | _ => some (ds, false)

/-- `strcpy` to a buffer of `size` bytes -/
def copyTo (size : Nat) (value : Str) : Option Str := if value.length < size then some value else none

/-- `dsim_SetStr`, with its status -/
def dsimSetStr (calloc : Bool) (ds : NamedFile) (image : Int) (param : Param) (value : Str) :
    Option (NamedFile × Bool) :=
  let global (ds : NamedFile) : Option (NamedFile × Bool) :=
    match param with
    | .imageNameFormat => (copyTo szName value).map fun v => ({ ds with imformat := v }, true)
    | .objectName => (copyTo szPathname value).map fun v => ({ ds with name := v }, true)
    | .objectType => (copyTo szPathname value).map fun v => ({ ds with type := v }, true)
    | _ => some (ds, false)
  if image = 0 then global ds
  else
    match ds.request calloc image with
    | none => some (ds, false)
    | some ds =>
      match param with
      | .objectName => (copyTo szPathname value).bind fun v => ds.change image fun im => { im with name := v }
      | .objectType => (copyTo szPathname value).bind fun v => ds.change image fun im => { im with type := v }
      | _ => global ds

/-- `dsim_GetStr`, where the null pointer is `some none` -/
def dsimGetStr (ds : NamedFile) (image : Int) (param : Param) : Option (Option Str) :=
  if image = 0 then
    match param with
    | .imageNameFormat => some (some ds.imformat)
    | .objectName => some (some ds.name)
    | .objectType => some (some ds.type)
    | _ => some none
  else if image < 1 ∨ ds.nimages < image ∨ ds.imagelist.isNone then some none
  else
    match param with
    | .imageNameFormat => some (some ds.imformat)
    | .objectName => (ds.image image).map fun im => some im.name
    | .objectType => (ds.image image).map fun im => some im.type
    | _ => some none

/-- The loop of `dsim_Locate` in round `i`, with the descriptors from there on. -/
def locateLoop (im : NamedImage) (name : Str) : Nat → List NamedFile → Option Int
  | _, [] => none
  | i, ds :: rest =>
    if i < ds.nimages then if im.name = name then some (i + 1) else locateLoop im name (i + 1) rest else some 0

/-- `dsim_Locate`. There is only one descriptor at its address. -/
def dsimLocate (ds : NamedFile) (name : Str) : Option Int :=
  if ds.nimages ≤ 0 ∨ ds.imagelist.isNone then some 0
  else (ds.image 1).bind fun im => locateLoop im name 0 [ds]

section Configure

variable (sprintf : Str → Int → Str) (sizeofLong : Nat) (hdr : Nat → Bool) (mapped : Bool)

/-- The type and the name of image `image`, the defaults if none are given, and the number of images of the type
`IMAGE` so far. -/
def NamedImage.label (imformat : Str) (image nim : Nat) (im : NamedImage) : NamedImage × Nat :=
  let im := if im.type = [] then { im with type := imageType } else im
  let buf := ['e', 'x', 't', 'n'] ++ printInt image
  let (buf, im, nim) :=
    if im.type = imageType then (sprintf imformat ↑(nim + 1), { im with imagenumber := nim + 1 }, nim + 1)
    else (buf, im, nim)
  (if im.name = [] then { im with name := buf } else im, nim)

/-- The loop of `dsim_Configure` over `n` images. -/
def configureNamed (imformat : Str) (maxkw : Int) :
    Nat → Nat → Nat → Int → List NamedImage → Option (Option (List NamedImage × Int))
  | 0, _, _, filesize, ims => some (some (ims, filesize))
  | _ + 1, _, _, _, [] => none
  | n + 1, image, nim, filesize, im :: ims =>
    let (im, nim) := im.label sprintf imformat image nim
    match im.geometry.configure sizeofLong maxkw filesize with
    | none => some none
    | some (g, filesize) =>
      if !hdr image then some none
      else
        (configureNamed imformat maxkw n (image + 1) nim filesize ims).map fun r =>
          r.map fun (ims, filesize) => ({ im with geometry := g } :: ims, filesize)

/-- `dsim_Configure` -/
def dsimConfigure (ds : NamedFile) : Option (Option NamedFile) :=
  if ds.configured then some (some ds)
  else
    let maxkeywords := roundKeywords (if ds.maxkeywords = 0 then defMaxkeywords else ds.maxkeywords)
    let hdrLength := int32 (maxkeywords * cardlen)
    let ds := { ds with maxkeywords, hdrOffset := 0, hdrLength, filesize := hdrLength }
    if ds.nimages = 0 then some (some ds)
    else if !hdr 0 then some none
    else
      (configureNamed sprintf sizeofLong hdr ds.imformat maxkeywords ds.nimages.toNat 1 0 hdrLength
        (ds.imagelist.getD [])).map fun r => r.bind fun (ims, filesize) =>
          if !mapped then none
          else some { ds with imagelist := ds.imagelist.map fun _ => ims, filesize, configured := true }

/-- `struct dca_image` -/
structure DCAImage where
  name : Str
  type : Str
  pixtype : Int
  naxes : Int
  axlen : Nat → Int
  extend : Int

/-- What `ConfigureImage` sets for an image, in this order. A string is passed as its address. -/
def DCAImage.attributes (address : Str → Int) (maxkwImage : Int) (im : DCAImage) : List (Param × Int) :=
  [(.maxKeywords, maxkwImage), (.objectName, address im.name), (.objectType, address im.type),
    (.pixelType, im.pixtype), (.nAxes, im.naxes), (.axlen1, im.axlen 0), (.axlen2, im.axlen 1),
    (.axlen3, im.axlen 2), (.extend, im.extend)]

/-- The attributes of image `i` are set, and the statuses ignored. -/
def setAttributes (calloc : Nat → Param → Bool) (i : Nat) :
    List (Param × Int) → NamedFile → Option NamedFile
  | [], ds => some ds
  | (param, value) :: l, ds =>
    (dsimSet (calloc i param) ds i param value).bind fun r => setAttributes calloc i l r.1

/-- The attributes of the images from number `i` on -/
def setImages (calloc : Nat → Param → Bool) (address : Str → Int) (maxkwImage : Int) :
    Nat → List DCAImage → NamedFile → Option NamedFile
  | _, [], ds => some ds
  | i, im :: ims, ds =>
    (setAttributes calloc i (im.attributes address maxkwImage) ds).bind
      (setImages calloc address maxkwImage (i + 1) ims)

/-- `ConfigureImage`. -/
def configureImage (calloc : Nat → Param → Bool) (address : Str → Int) (maxkwGlobal maxkwImage : Int)
    (images : List DCAImage) (ds : NamedFile) : Option (Option NamedFile) :=
  (dsimSet true ds 0 .nImages images.length).bind fun r =>
    (dsimSet true r.1 0 .maxKeywords maxkwGlobal).bind fun r =>
      (setImages calloc address maxkwImage 1 images r.1).bind (dsimConfigure sprintf sizeofLong hdr mapped)

end Configure

/-! ## What is set and what is returned -/

/-- The name and the type of an image. -/
def NamedImage.given (im : NamedImage) : Str × Str := (im.name, im.type)

/-- A file whose images, if there are any yet, have no names and types. -/
structure Blank (n : Nat) (ds : NamedFile) : Prop where
  nimages : ds.nimages = n
  configured : ds.configured = false
  unnamed : ∀ ims, ds.imagelist = some ims → ims.map NamedImage.given = List.replicate n ([], [])

/-- Attributes of images are set: nothing but the list of the images is changed, and it stays blank. -/
structure NamedFile.SetsTo (ds ds' : NamedFile) : Prop where
  frame : ds' = { ds with imagelist := ds'.imagelist }
  blank : ∀ n, Blank n ds → Blank n ds'

section Set

variable {ds ds' ds'' : NamedFile} {calloc ok : Bool} {image : Int} {param : Param}

theorem NamedFile.SetsTo.refl (ds : NamedFile) : ds.SetsTo ds := ⟨rfl, fun _ h => h⟩

theorem NamedFile.SetsTo.trans (h : ds.SetsTo ds') (h' : ds'.SetsTo ds'') : ds.SetsTo ds'' := by
  refine ⟨?_, fun n hb => h'.blank n (h.blank n hb)⟩
  rw [h'.frame, h.frame]

theorem NamedFile.request_setsTo (h : ds.request calloc image = some ds') : ds.SetsTo ds' := by
  unfold NamedFile.request at h
  split at h
  · cases h
  · split at h
    · split at h
      · cases h
        refine ⟨rfl, fun n hb => ⟨hb.nimages, hb.configured, fun ims hims => ?_⟩⟩
        cases hims
        rw [List.map_replicate, hb.nimages]
        rfl
      · cases h
    · cases h
      exact .refl ds

/-- A change that leaves the name and the type as they are -/
theorem NamedFile.change_setsTo {f : NamedImage → NamedImage} (hf : ∀ im, (f im).given = im.given)
    (h : ds.change image f = some (ds', ok)) : ds.SetsTo ds' := by
  obtain ⟨im, him, h⟩ := Option.map_eq_some_iff.mp h
  cases h
  refine ⟨rfl, fun n hb => ⟨hb.nimages, hb.configured, fun ims hims => ?_⟩⟩
  obtain ⟨ims', hims', rfl⟩ := Option.map_eq_some_iff.mp hims
  rw [NamedFile.image, hims', Option.getD_some] at him
  rw [← hb.unnamed ims' hims', List.map_set, hf]
  refine List.ext_getElem? fun i => ?_
  rw [List.getElem?_set, List.getElem?_map]
  split
  · next hi =>
    subst hi
    rw [him, if_pos (by simpa using (List.getElem?_eq_some_iff.mp him).1)]
    rfl
  · rfl

/-- `dsim_Set` does not set names and types. -/
theorem dsimSet_setsTo {value : Int} (himage : image ≠ 0)
    (h : dsimSet calloc ds image param value = some (ds', ok)) : ds.SetsTo ds' := by
  unfold dsimSet at h
  rw [if_neg himage] at h
  cases hr : ds.request calloc image with
  | none =>
    rw [hr] at h
    cases h
    exact .refl ds
  | some ds₁ =>
    have h₁ := NamedFile.request_setsTo hr
    have hgeom : ∀ {f : NamedImage → NamedImage}, ds₁.change image f = some (ds', ok) →
        (∀ im, (f im).given = im.given) → ds.SetsTo ds' :=
      fun h hf => h₁.trans (NamedFile.change_setsTo hf h)
    rw [hr] at h
    cases param with
    | pixelType => exact hgeom h fun _ => rfl
    | nAxes =>
      dsimp only at h
      split at h
      · cases h
        exact h₁
      · exact hgeom h fun _ => rfl
    | axlen1 => exact hgeom h fun _ => rfl
    | axlen2 => exact hgeom h fun _ => rfl
    | axlen3 => exact hgeom h fun _ => rfl
    | maxKeywords => exact hgeom h fun _ => rfl
    | extend => exact hgeom h fun _ => rfl
    | _ =>
      cases h
      exact h₁

theorem setAttributes_setsTo {calloc : Nat → Param → Bool} {i : Nat} (hi : i ≠ 0) {l : List (Param × Int)}
    (h : setAttributes calloc i l ds = some ds') : ds.SetsTo ds' := by
  induction l generalizing ds with
  | nil =>
    cases h
    exact .refl _
  | cons a l ih =>
    obtain ⟨⟨ds₁, ok⟩, h₁, h⟩ := Option.bind_eq_some_iff.mp h
    exact (dsimSet_setsTo (by omega) h₁).trans (ih h)

theorem setImages_setsTo {calloc : Nat → Param → Bool} {address : Str → Int} {maxkwImage : Int} {i : Nat} (hi : i ≠ 0)
    {images : List DCAImage} (h : setImages calloc address maxkwImage i images ds = some ds') : ds.SetsTo ds' := by
  induction images generalizing i ds with
  | nil =>
    cases h
    exact .refl _
  | cons im images ih =>
    obtain ⟨ds₁, h₁, h⟩ := Option.bind_eq_some_iff.mp h
    exact (setAttributes_setsTo hi h₁).trans (ih (Nat.succ_ne_zero i) h)

theorem copyTo_eq_some {size : Nat} {value v : Str} (h : copyTo size value = some v) : v = value := by
  unfold copyTo at h
  split at h
  · exact (Option.some.inj h).symm
  · cases h

/-- An image that was requested is in range, and there is a list. -/
theorem NamedFile.request_range (h : ds.request calloc image = some ds') :
    1 ≤ image ∧ image ≤ ds'.nimages ∧ ds'.imagelist.isNone = false := by
  unfold NamedFile.request at h
  split at h
  · cases h
  next hrange =>
  obtain ⟨h₁, h₂⟩ := not_or.mp hrange
  split at h
  · split at h
    · cases h
      exact ⟨not_lt.mp h₁, not_lt.mp h₂, rfl⟩
    · cases h
  · next hl =>
    cases h
    exact ⟨not_lt.mp h₁, not_lt.mp h₂, eq_false_of_ne_true hl⟩

theorem NamedFile.change_image {f : NamedImage → NamedImage} (h : ds.change image f = some (ds', ok)) :
    ds'.nimages = ds.nimages ∧ ds'.imagelist.isNone = ds.imagelist.isNone ∧
      ∃ im, ds'.image image = some (f im) := by
  obtain ⟨im, him, h⟩ := Option.map_eq_some_iff.mp h
  cases h
  cases hl : ds.imagelist with
  | none => simp [NamedFile.image, hl] at him
  | some ims =>
    rw [NamedFile.image, hl, Option.getD_some] at him
    refine ⟨rfl, rfl, im, ?_⟩
    change (ims.set _ (f im))[(image - 1).toNat]? = some (f im)
    exact List.getElem?_set_self (List.getElem?_eq_some_iff.mp him).1

/-- The string that `dsim_SetStr` has set is the one that `dsim_GetStr` returns. -/
theorem dsimGetStr_setStr {value : Str} (hp : param = .objectName ∨ param = .objectType)
    (h : dsimSetStr calloc ds image param value = some (ds', true)) :
    dsimGetStr ds' image param = some (some value) := by
  unfold dsimSetStr at h
  dsimp only at h
  split at h
  · next h0 =>
    subst h0
    rcases hp with rfl | rfl <;>
    · obtain ⟨v, hv, h⟩ := Option.map_eq_some_iff.mp h
      cases h
      rw [copyTo_eq_some hv]
      rfl
  next h0 =>
  cases hr : ds.request calloc image with
  | none =>
    rw [hr] at h
    cases h
  | some ds₁ =>
    obtain ⟨hone, hrange, hlist⟩ := NamedFile.request_range hr
    rw [hr] at h
    rcases hp with rfl | rfl <;>
    · obtain ⟨v, hv, h⟩ := Option.bind_eq_some_iff.mp h
      obtain ⟨hn, hl, im, him⟩ := NamedFile.change_image h
      rw [dsimGetStr, if_neg h0, if_neg (by simp [hn, hl, hlist, hone, hrange])]
      simp [him, copyTo_eq_some hv]

end Set

/-! ## The layout -/

/-- Names do not enter into the layout: the images of a new file are laid out as `DSImage.configure` lays them out. -/
theorem configureNamed_geometry (sprintf : Str → Int → Str) (sizeofLong : Nat) (hdr : Nat → Bool) (imformat : Str)
    (maxkw : Int) (image nim : Nat) (filesize : Int) (ims : List NamedImage) :
    (configureNamed sprintf sizeofLong hdr imformat maxkw ims.length image nim filesize ims).map
        (fun r => r.map fun (ims, filesize) => (ims.map NamedImage.geometry, filesize)) =
      some (configureImages sizeofLong maxkw hdr image filesize (ims.map NamedImage.geometry)) := by
  induction ims generalizing image nim filesize with
  | nil => rfl
  | cons im ims ih =>
    have hgeom : (im.label sprintf imformat image nim).1.geometry = im.geometry := by
      unfold NamedImage.label
      dsimp only
      split <;> split <;> split <;> rfl
    rw [List.length_cons, configureNamed, List.map_cons, configureImages]
    dsimp only
    rw [hgeom]
    cases im.geometry.configure sizeofLong maxkw filesize with
    | none => rfl
    | some r =>
      obtain ⟨g, filesize⟩ := r
      rw [Option.bind_some]
      dsimp only
      split
      · rfl
      · have hrest := ih (image + 1) (im.label sprintf imformat image nim).2 filesize
        obtain ⟨r, hr, hrest⟩ := Option.map_eq_some_iff.mp hrest
        rw [hr, ← hrest, Option.map_some, Option.map_some]
        cases r <;> rfl

/-! ## After `ConfigureImage` -/

section After

variable {sprintf : Str → Int → Str} {sizeofLong : Nat} {hdr : Nat → Bool} {mapped : Bool}
  {calloc : Nat → Param → Bool} {address : Str → Int} {maxkwGlobal maxkwImage : Int} {images : List DCAImage}
  {ds ds' : NamedFile}

/-- An image without a name and a type is given the defaults. -/
theorem NamedImage.label_blank (sprintf : Str → Int → Str) (imformat : Str) (image nim : Nat) {im : NamedImage}
    (h : im.given = ([], [])) :
    (im.label sprintf imformat image nim).1.given = (sprintf imformat ↑(nim + 1), imageType) ∧
      (im.label sprintf imformat image nim).2 = nim + 1 := by
  obtain ⟨name, type, number, g⟩ := im
  cases h
  exact ⟨rfl, rfl⟩

/-- The images of a blank file are named in their order. -/
theorem configureNamed_given {imformat : Str} {maxkw : Int} {n image nim : Nat} {filesize filesize' : Int}
    {ims ims' : List NamedImage} (hblank : ims.map NamedImage.given = List.replicate n ([], []))
    (h : configureNamed sprintf sizeofLong hdr imformat maxkw n image nim filesize ims = some (some (ims', filesize'))) :
    ims'.map NamedImage.given = (List.range' (nim + 1) n).map fun i : Nat => (sprintf imformat i, imageType) := by
  induction n generalizing image nim filesize filesize' ims ims' with
  | zero =>
    cases h
    exact hblank
  | succ n ih =>
    cases ims with
    | nil => cases h
    | cons im ims =>
      rw [List.map_cons, List.replicate_succ, List.cons.injEq] at hblank
      obtain ⟨hgiven, hnim⟩ := NamedImage.label_blank sprintf imformat image nim hblank.1
      rw [configureNamed] at h
      dsimp only at h
      split at h
      · cases h
      split at h
      · cases h
      obtain ⟨r, hr, h⟩ := Option.map_eq_some_iff.mp h
      obtain ⟨⟨ims₁, size₁⟩, rfl, h⟩ := Option.map_eq_some_iff.mp h
      cases h
      have hrest := ih hblank.2 hr
      rw [hnim] at hrest
      rw [List.map_cons, hrest, List.range'_succ, List.map_cons, ← hgiven]
      rfl

/-- `dsim_Configure` does not change the number of images. -/
theorem dsimConfigure_nimages (h : dsimConfigure sprintf sizeofLong hdr mapped ds = some (some ds')) :
    ds'.nimages = ds.nimages := by
  unfold dsimConfigure at h
  dsimp only at h
  split at h
  · cases h
    rfl
  split at h
  · cases h
    rfl
  split at h
  · cases h
  obtain ⟨r, -, h⟩ := Option.map_eq_some_iff.mp h
  obtain ⟨⟨ims, filesize⟩, -, h⟩ := Option.bind_eq_some_iff.mp h
  dsimp only at h
  split at h
  · cases h
  · cases h
    rfl

/-- The images of a blank file have the default names and the default type after `dsim_Configure`. -/
theorem dsimConfigure_blank {n : Nat} (hb : Blank n ds) (hn : n ≠ 0)
    (h : dsimConfigure sprintf sizeofLong hdr mapped ds = some (some ds')) :
    (ds'.imagelist.getD []).map NamedImage.given =
      (List.range' 1 n).map fun i : Nat => (sprintf ds.imformat i, imageType) := by
  unfold dsimConfigure at h
  dsimp only at h
  rw [hb.configured, if_neg Bool.false_ne_true, hb.nimages, if_neg (by omega)] at h
  split at h
  · cases h
  obtain ⟨r, hr, h⟩ := Option.map_eq_some_iff.mp h
  obtain ⟨⟨ims, filesize⟩, rfl, h⟩ := Option.bind_eq_some_iff.mp h
  split at h
  · cases h
  cases h
  cases hl : ds.imagelist with
  | none =>
    obtain ⟨m, rfl⟩ := Nat.exists_eq_succ_of_ne_zero hn
    rw [hl] at hr
    cases hr
  | some ims₀ =>
    rw [hl] at hr
    exact configureNamed_given (hb.unnamed ims₀ hl) hr

/-- The file that is configured is the one with the attributes. -/
theorem configureImage_cases
    (h : configureImage sprintf sizeofLong hdr mapped calloc address maxkwGlobal maxkwImage images ds = some (some ds')) :
    ∃ ds₁, NamedFile.SetsTo { ds with nimages := images.length, maxkeywords := maxkwGlobal } ds₁ ∧
      dsimConfigure sprintf sizeofLong hdr mapped ds₁ = some (some ds') := by
  have h : (setImages calloc address maxkwImage 1 images
      { ds with nimages := images.length, maxkeywords := maxkwGlobal }).bind
        (dsimConfigure sprintf sizeofLong hdr mapped) = some (some ds') := h
  obtain ⟨ds₁, h₁, h⟩ := Option.bind_eq_some_iff.mp h
  exact ⟨ds₁, setImages_setsTo one_ne_zero h₁, h⟩

theorem configureImage_nimages
    (h : configureImage sprintf sizeofLong hdr mapped calloc address maxkwGlobal maxkwImage images ds = some (some ds')) :
    ds'.nimages = images.length := by
  obtain ⟨ds₁, h₁, h⟩ := configureImage_cases h
  rw [dsimConfigure_nimages h, h₁.frame]

/-- `dsim_GetStr` returns for each image the name and the type that were given for it. -/
def Given (ds : NamedFile) (images : List DCAImage) : Prop :=
  ∀ (k : Nat) im, images[k]? = some im → dsimGetStr ds ↑(k + 1) .objectName = some (some im.name) ∧
    dsimGetStr ds ↑(k + 1) .objectType = some (some im.type)

/-- `dsim_Locate` finds the images by their names, and no other ones. -/
def Located (ds : NamedFile) (images : List DCAImage) : Prop :=
  (∀ (k : Nat) im, images[k]? = some im → dsimLocate ds im.name = some ↑(k + 1)) ∧
    ∀ name, (∀ im ∈ images, im.name ≠ name) → dsimLocate ds name = some 0

/-- What is returned for image `k + 1` of a file with this list -/
theorem dsimGetStr_given {k : Nat} (hk : (k + 1 : Int) ≤ ds.nimages) {l : List (Str × Str)}
    (hl : (ds.imagelist.getD []).map NamedImage.given = l) (hlen : k < l.length) :
    dsimGetStr ds ↑(k + 1) .objectName = some (some l[k].1) ∧
      dsimGetStr ds ↑(k + 1) .objectType = some (some l[k].2) := by
  subst hl
  have hlen' : k < (ds.imagelist.getD []).length := by simpa using hlen
  have hsome : ds.imagelist.isNone = false := by
    cases hl : ds.imagelist with
    | none => simp [hl] at hlen'
    | some ims => rfl
  have him : ds.image ↑(k + 1) = some (ds.imagelist.getD [])[k] := by
    rw [NamedFile.image, show ((↑(k + 1) : Int) - 1).toNat = k by omega]
    exact List.getElem?_eq_getElem hlen'
  have hcond : ¬ ((↑(k + 1) : Int) < 1 ∨ ds.nimages < ↑(k + 1) ∨ ds.imagelist.isNone = true) := by
    rw [hsome]
    simp only [Bool.false_eq_true, or_false]
    omega
  unfold dsimGetStr
  rw [if_neg (by omega), if_neg hcond, if_neg (by omega), if_neg hcond]
  dsimp only
  rw [him, List.getElem_map]
  exact ⟨rfl, rfl⟩

/-- `dsim_Locate` finds the first image of a list, and for any other name it reads behind the descriptor. -/
theorem dsimLocate_eq (hn : 0 < ds.nimages) {im : NamedImage} {ims : List NamedImage}
    (hl : ds.imagelist = some (im :: ims)) (name : Str) :
    dsimLocate ds name = if im.name = name then some 1 else none := by
  have him : ds.image 1 = some im := by simp [NamedFile.image, hl]
  rw [dsimLocate, if_neg (by simp [hl, hn]), him, Option.bind_some, locateLoop, if_pos (by exact_mod_cast hn)]
  rfl

/-- The names and types that are returned for a new file are the ones that were given exactly if those are the
defaults. -/
theorem given_iff (hnew : ds.configured = false ∧ ds.imagelist = none)
    (h : configureImage sprintf sizeofLong hdr mapped calloc address maxkwGlobal maxkwImage images ds = some (some ds')) :
    Given ds' images ↔
      ∀ (k : Nat) im, images[k]? = some im → im.name = sprintf ds.imformat ↑(k + 1) ∧ im.type = imageType := by
  have hn := configureImage_nimages h
  obtain ⟨ds₁, hset, hconf⟩ := configureImage_cases h
  have hb : Blank images.length ds₁ := by
    refine hset.blank _ ⟨rfl, hnew.1, fun ims hims => ?_⟩
    rw [show ds.imagelist = some ims from hims] at hnew
    cases hnew.2
  refine forall_congr' fun k => forall_congr' fun im => imp_congr_right fun him => ?_
  have hk := (List.getElem?_eq_some_iff.mp him).1
  have hl := dsimConfigure_blank hb (by omega) hconf
  rw [show ds₁.imformat = ds.imformat by rw [hset.frame]] at hl
  obtain ⟨hname, htype⟩ := dsimGetStr_given (k := k) (by omega) hl (by simpa using hk)
  rw [hname, htype]
  simp only [List.getElem_map, List.getElem_range', Option.some.injEq]
  rw [show 1 + 1 * k = k + 1 by omega]
  exact and_congr eq_comm eq_comm

/-- After `ConfigureImage` succeeds the images have the names and types that were given for them, and are located by
their names, exactly if there are no images. -/
theorem named_iff
    (h : configureImage sprintf sizeofLong hdr mapped calloc address maxkwGlobal maxkwImage images ds = some (some ds')) :
    Given ds' images ∧ Located ds' images ↔ images = [] := by
  have hn := configureImage_nimages h
  constructor
  · rintro ⟨-, hfound, hother⟩
    by_contra hne
    obtain ⟨im₀, rest, rfl⟩ := List.exists_cons_of_ne_nil hne
    have hpos : 0 < ds'.nimages := by simp [hn]
    have hfirst := hfound 0 im₀ rfl
    cases hl : ds'.imagelist with
    | none =>
      rw [dsimLocate, if_pos (by simp [hl])] at hfirst
      cases hfirst
    | some ims =>
      cases ims with
      | nil =>
        rw [dsimLocate, if_neg (by simp [hl, hpos])] at hfirst
        simp [NamedFile.image, hl] at hfirst
      | cons im ims =>
        -- a name that neither an image of the list nor the first image of the file has
        obtain ⟨name, hname⟩ := Infinite.exists_notMem_finset
          (insert im.name ((im₀ :: rest).map DCAImage.name).toFinset)
        rw [Finset.mem_insert, List.mem_toFinset, not_or] at hname
        have hzero := hother name fun im hmem heq => hname.2 (heq ▸ List.mem_map_of_mem hmem)
        rw [dsimLocate_eq hpos hl, if_neg (Ne.symm hname.1)] at hzero
        cases hzero
  · rintro rfl
    refine ⟨fun k im him => by simp at him, fun k im him => by simp at him, fun name _ => ?_⟩
    rw [dsimLocate, if_pos (.inl (by simp [hn]))]

end After

/-! ## Two images -/

/-- Two images of one pixel, with the names and the type that are given for them -/
def twoImages : List DCAImage :=
  [⟨['S', '1'], imageType, 2, 1, fun _ => 1, 0⟩, ⟨['S', '2'], imageType, 2, 1, fun _ => 1, 0⟩]

/-- The names with the default format -/
def printName (_ : Str) (n : Int) : Str := ['i', 'm'] ++ printInt n

/-- The file after these images have been configured -/
def twoConfigured : Option (Option NamedFile) :=
  configureImage printName 8 (fun _ => true) true (fun _ _ => true) (fun _ => 0) 72 72 twoImages
    (.opened ['o', 'b', 'j'] ['i', 'm', '%', 'd'] 72)

theorem twoConfigured_succeeds : ∃ ds, twoConfigured = some (some ds) := by
  have hsome : (twoConfigured.bind id).isSome = true := by decide
  obtain ⟨ds, h⟩ := Option.isSome_iff_exists.mp hsome
  obtain ⟨_, hds, rfl⟩ := Option.bind_eq_some_iff.mp h
  exact ⟨ds, hds⟩

theorem named_two :
    ∃ ds, twoConfigured = some (some ds) ∧ (Given ds twoImages ∧ Located ds twoImages ↔ twoImages = []) := by
  obtain ⟨ds, h⟩ := twoConfigured_succeeds
  exact ⟨ds, h, named_iff h⟩

/-- They are anonymous, and the second one is not found. -/
theorem twoImages_anonymous :
    ∃ ds, twoConfigured = some (some ds) ∧ dsimGetStr ds 1 .objectName = some (some ['i', 'm', '1']) ∧
      dsimLocate ds ['S', '2'] = none ∧ ¬ Given ds twoImages ∧ ¬ Located ds twoImages := by
  obtain ⟨ds, hds⟩ := twoConfigured_succeeds
  have h : twoConfigured.bind id = some ds := by
    rw [hds]
    rfl
  have hname : (twoConfigured.bind id).map (fun ds => dsimGetStr ds 1 .objectName) =
      some (some (some ['i', 'm', '1'])) := by decide
  have hlocate : (twoConfigured.bind id).map (fun ds => dsimLocate ds ['S', '2']) = some none := by decide
  rw [h, Option.map_some, Option.some.injEq] at hname hlocate
  refine ⟨ds, hds, hname, hlocate, fun hgiven => ?_, fun hfound => ?_⟩
  · have := (hgiven 0 _ rfl).1
    rw [show ((0 + 1 : Nat) : Int) = 1 from rfl, hname] at this
    exact absurd this (by decide)
  · have := hfound.1 1 _ rfl
    rw [hlocate] at this
    cases this

end Ndhs.Dsim
