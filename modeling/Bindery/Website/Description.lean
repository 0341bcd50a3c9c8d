import Bindery.Language.Locale
import Bindery.Website.Markup

/-!
# What kinds of files are for

A sentence for readers on each kind of file that can be downloaded, told by the suffix of its name.
-/

namespace Bindery.Website

open Text (bytes)

namespace Description

/-- The name of a format that links to its definition. -/
def format (address name : Bytes) : Markup := .element "code" [] [.link address name]

def markdownAddress : Bytes := "https://pandoc.org/MANUAL.html#pandocs-markdown"

def yamlAddress : Bytes := "https://yaml.org/"

def pdfAddress : Bytes := "https://www.iso.org/standard/75839.html"

def htmlAddress : Bytes := "https://www.w3.org/TR/html5/"

def epubAddress : Bytes := "https://www.w3.org/publishing/epub32/"

def zipAddress : Bytes := "https://www.loc.gov/preservation/digital/formats/fdd/fdd000354.shtml"

def uuml : Markup := .entity "uuml"

def auml : Markup := .entity "auml"

def quot : Markup := .entity "quot"

/-- The descriptions in English. -/
def english : List (Bytes × List Markup) :=
  [("md",
      [.text "The expanded ", format markdownAddress "markdown",
        .text " source of the book, ready for pandoc."]),
    ("yaml",
      [.text "The numbers assigned to figures, listings, tables and definitions, as ",
        format yamlAddress "yaml", .text "."]),
    ("pdf",
      [.text "The ", quot, .text "portable document format", quot, .text " (",
        format pdfAddress "pdf",
        .text ") is most suitable for reading on a PC and for printing documents."]),
    ("html",
      [.text "A stand-alone web page (", format htmlAddress "html",
        .text ") can be viewed well both on mobile phones as well as on PCs."]),
    ("epub",
      [.text "The electronic book format (", format epubAddress "epub",
        .text ") is convenient for many e-book readers as well as mobile phones."]),
    ("zip",
      [.text "A ", format zipAddress "zip",
        .text (bytes " archive containing the book in all the formats mentioned above for "
          ++ "convenient download.")]),
    ("tar.xz",
      [.text "A ", .element "code" [] [.text "tar.xz"],
        .text (bytes " archive containing the book in all the formats mentioned above for "
          ++ "convenient download.")])]

/-- The descriptions in German. -/
def german : List (Bytes × List Markup) :=
  [("md",
      [.text "Die expandierte ", format markdownAddress "Markdown",
        .text "-Quelle des Buchs, bereit f", uuml, .text "r pandoc."]),
    ("yaml",
      [.text "Die Nummern der Abbildungen, Listings, Tabellen und Definitionen als ",
        format yamlAddress "yaml", .text "."]),
    ("pdf",
      [.text "Das ", quot, .text "portable document format", quot, .text " (",
        format pdfAddress "pdf", .text ") ist f", uuml,
        .text "r das Lesen am PC oder das Ausdrucken geeignet."]),
    ("html",
      [.text "Eine stand-alone Webseite (", format htmlAddress "html",
        .text (bytes ") kann sowohl auf dem Mobiltelefon als auch auf dem PC gut gelesen "
          ++ "werden.")]),
    ("epub",
      [.text "Das Format f", uuml, .text "r E-Books (", format epubAddress "epub",
        .text ") ist g", uuml, .text "nstig f", uuml, .text "r E-Book Leseger", auml,
        .text "te, Tablets und Mobiltelefone."]),
    ("zip",
      [.text "Ein ", format zipAddress "zip",
        .text " Archiv mit allen oben genannten Formaten des Buchs."]),
    ("tar.xz",
      [.text "Ein ", .element "code" [] [.text "tar.xz"],
        .text " Archiv mit allen oben genannten Formaten des Buchs."])]

end Description

/-- The descriptions for a language: those in English unless there are some of its own. -/
def descriptions (lang : Bytes) : List (Bytes × List Markup) :=
  let locale := (Language.localeOf lang).takeWhile (· != 95)
  if locale == bytes "de" then Description.german else Description.english

end Bindery.Website
