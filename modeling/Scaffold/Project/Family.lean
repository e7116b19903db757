import Scaffold.Project.Feature

/-! # Template families

The two packaged families, with their features and what is removed with each.
-/

namespace Scaffold.Project

/-- A family of templates. -/
structure Family where
  name : String
  features : List Feature
  rules : List (String × Rule)
  actions : List Action
  /-- The names, without ending, of configuration files at the root that lose their types. -/
  configFiles : List String
  /-- The development dependencies that go with the types. -/
  typeDependencies : List String
  /-- The development dependencies, with their versions, that are there without types too. -/
  retainedDependencies : List (String × String)
  deriving DecidableEq, Repr, Inhabited

def Family.rule? (family : Family) (name : String) : Option Rule := family.rules.lookup name

/-- The action of a name, if the family knows it. -/
def Family.action? (family : Family) (name : String) : Option Action :=
  family.actions.find? fun action => action.name = name

def installCommand : String := "npm install"
def startCommand : String := "npm run dev"

/-- A feature that is on by default. -/
def feature (name label : String) : Feature := ⟨name, label, true⟩

def defaultTypeDependencies : List String := ["typescript", "vue-tsc"]

def viteConfig : String := "vite.config.*"
def mainFile : String := "src/main.*"
def nuxtConfig : String := "nuxt.config.*"

def importStep (target moduleName : String) : EditStep := ⟨Action.removeImport.name, target, [moduleName]⟩
def pluginStep (target plugin : String) : EditStep := ⟨Action.removePlugin.name, target, [plugin]⟩
def entryStep (target value : String) : EditStep := ⟨Action.removeArrayEntry.name, target, [value]⟩
def callStep (target function argument : String) : EditStep :=
  ⟨Action.removeCall.name, target, [function, argument]⟩

/-- Single-page applications. -/
def vue3 : Family where
  name := "vue3"
  features := [
    feature "typescript" "TypeScript",
    feature "jsx" "JSX support",
    feature "router" "Vue Router (single-page application)",
    feature "pinia" "Pinia (state management)",
    feature "unocss" "UnoCSS (atomic CSS)",
    feature "vitest" "Vitest (unit testing)",
    feature "auto-import" "Auto Import (API auto-import)",
    feature "components" "Components (component auto-registration)"]
  rules := [
    ("typescript", { Rule.none with
      scripts := ["type", "type-check"]
      paths := ["tsconfig.json", "tsconfig.app.json", "tsconfig.node.json", "tsconfig.vitest.json",
        "env.d.ts", "components.d.ts", "src/auto-import.d.ts"]
      transpile := true }),
    ("jsx", { Rule.none with
      devDependencies := ["@vitejs/plugin-vue-jsx"]
      edits := [importStep viteConfig "@vitejs/plugin-vue-jsx", pluginStep viteConfig "vueJsx"] }),
    ("router", { Rule.none with
      dependencies := ["vue-router"]
      paths := ["src/router", "src/views"]
      edits := [importStep mainFile "./router", callStep mainFile "app.use" "router"] }),
    ("pinia", { Rule.none with
      dependencies := ["pinia"]
      paths := ["src/stores"]
      edits := [importStep mainFile "pinia", callStep mainFile "app.use" "createPinia"] }),
    ("unocss", { Rule.none with
      devDependencies := ["unocss", "@unocss/reset"]
      paths := ["uno.config.*"]
      edits := [importStep viteConfig "unocss/vite", pluginStep viteConfig "UnoCSS",
        importStep mainFile "uno.css", importStep mainFile "virtual:uno.css",
        importStep mainFile "@unocss/reset/tailwind.css"] }),
    ("vitest", { Rule.none with
      devDependencies := ["vitest", "@vue/test-utils", "jsdom", "@types/jsdom"]
      scripts := ["test:unit"]
      paths := ["vitest.config.*", "tsconfig.vitest.json"] }),
    ("auto-import", { Rule.none with
      devDependencies := ["unplugin-auto-import"]
      paths := ["src/auto-import.d.ts"]
      edits := [importStep viteConfig "unplugin-auto-import/vite", pluginStep viteConfig "AutoImport"] }),
    ("components", { Rule.none with
      devDependencies := ["unplugin-vue-components"]
      paths := ["components.d.ts"]
      edits := [importStep viteConfig "unplugin-vue-components/vite", pluginStep viteConfig "Components"] })]
  actions := commonActions
  configFiles := ["vite.config", "uno.config", "vitest.config"]
  typeDependencies := defaultTypeDependencies
  retainedDependencies := []

/-- Applications that need the packages of types even when their own sources have none. -/
def nuxt3 : Family where
  name := "nuxt3"
  features := [
    feature "typescript" "TypeScript",
    feature "unocss" "UnoCSS (atomic CSS)",
    feature "sass" "Sass (CSS preprocessor)",
    feature "vueuse" "VueUse (composition utilities)",
    feature "nuxt-image" "Nuxt Image (image optimisation)",
    feature "auto-import" "Auto Import (API auto-import)",
    feature "components" "Components (component auto-registration)"]
  rules := [
    ("typescript", { Rule.none with
      scripts := ["type", "type-check"]
      paths := ["tsconfig.json", "components.d.ts", "src/auto-import.d.ts"]
      edits := [⟨Action.disableTypeCheck.name, nuxtConfig, []⟩]
      transpile := true }),
    ("unocss", { Rule.none with
      devDependencies := ["unocss", "@unocss/nuxt"]
      paths := ["uno.config.*"]
      edits := [entryStep nuxtConfig "@unocss/nuxt"] }),
    ("sass", { Rule.none with devDependencies := ["sass"] }),
    ("vueuse", { Rule.none with
      devDependencies := ["@vueuse/core", "@vueuse/nuxt"]
      edits := [entryStep nuxtConfig "@vueuse/nuxt"] }),
    ("nuxt-image", { Rule.none with
      dependencies := ["@nuxt/image"]
      edits := [entryStep nuxtConfig "@nuxt/image"] }),
    ("auto-import", { Rule.none with
      devDependencies := ["unplugin-auto-import"]
      edits := [importStep nuxtConfig "unplugin-auto-import/vite", pluginStep nuxtConfig "AutoImport"] }),
    ("components", { Rule.none with
      devDependencies := ["unplugin-vue-components"]
      edits := [importStep nuxtConfig "unplugin-vue-components/vite", pluginStep nuxtConfig "Components"] })]
  actions := commonActions ++ [.disableTypeCheck]
  configFiles := ["nuxt.config", "uno.config"]
  typeDependencies := []
  retainedDependencies := [("typescript", "^5.0.0"), ("vue-tsc", "^1.0.0")]

/-- The packaged families. -/
def families : List Family := [vue3, nuxt3]

/-- Adds a family, in place of one with its name. -/
def registerFamily (known : List Family) (family : Family) : List Family :=
  if known.any (·.name = family.name) then
    known.map fun other => if other.name = family.name then family else other
  else known ++ [family]

def family? (known : List Family) (name : String) : Option Family := known.find? (·.name = name)

end Scaffold.Project
